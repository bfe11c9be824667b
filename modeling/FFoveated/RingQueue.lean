import FFoveated.Queue

/-!
# The ring buffer behind `Queue`

`helpers.h` lays `Queue` out as a ring buffer: `capacity + 1` slots in `data`, the items from
`front` up to `rear`, where `data[rear]` always points to an unused slot; so `front = rear`
means empty, and `rear` one slot behind `front` means full. `queue.c`, which implements it, is
not among the sources: the operations below follow that layout, advance an index modulo the
number of slots, and leave an extracted slot as it is ("not overwritten").

## Main definitions

- `RingQueue` — the layout of `Queue`, with its indices inside the slots.
- `RingQueue.items` — the items it holds, oldest first.
- `runCalls` — a sequence of calls on a queue, up to the first that blocks.

## Main results

- `RingQueue.enqueue_refines`, `RingQueue.dequeue_refines` — each operation blocks exactly when
  the list model's does, returns what it returns, and leaves the items its buffer holds.
- `RingQueue.calls_refine` — from `create_queue`, any sequence of calls on the ring buffer
  returns what the list model returns.
-/

namespace FFoveated

/-- A call on a queue: `enqueue` of an item, or `dequeue`. -/
inductive QueueCall (α : Type)
  | enqueue (x : α)
  | dequeue

/-- The calls `cs` in turn by `step`, with what each returned; `none` once one blocks. -/
def runCalls {S C O : Type} (step : S → C → Option (O × S)) (s : S) :
    List C → Option (List O × S)
  | [] => some ([], s)
  | c :: cs => (step s c).bind fun r => (runCalls step r.2 cs).map fun r' => (r.1 :: r'.1, r'.2)

/-- Two implementations whose single calls agree, as long as their states are related, agree
on every sequence of calls. -/
theorem runCalls_rel {S T C O : Type} {f : S → C → Option (O × S)} {g : T → C → Option (O × T)}
    {R : S → T → Prop}
    (hstep : ∀ s t c, R s t → Option.Rel (fun a b => a.1 = b.1 ∧ R a.2 b.2) (f s c) (g t c))
    {s : S} {t : T} (h : R s t) (cs : List C) :
    Option.Rel (fun a b => a.1 = b.1 ∧ R a.2 b.2) (runCalls f s cs) (runCalls g t cs) := by
  induction cs generalizing s t with
  | nil => exact .some ⟨rfl, h⟩
  | cons c cs ih =>
    have hc := hstep s t c h
    revert hc
    simp only [runCalls]
    cases f s c <;> cases g t c <;> intro hc <;> cases hc
    case none => exact .none
    case some a b hab =>
      have hr := ih hab.2
      revert hr
      simp only [Option.some_bind]
      cases runCalls f a.2 cs <;> cases runCalls g b.2 cs <;> intro hr <;> cases hr
      case none => exact .none
      case some hr => exact .some ⟨congrArg₂ List.cons hab.1 hr.1, hr.2⟩

/-- One call on the list model. -/
def Queue.call {α : Type} {n : ℕ} (q : Queue α n) : QueueCall α → Option (Option α × Queue α n)
  | .enqueue x => (q.enqueue x).map fun q' => (none, q')
  | .dequeue => q.dequeue.map fun r => (some r.1, r.2)

/-- Modelled from the spec: `Queue` of `helpers.h`, `capacity + 1` slots, the index `front` of
the oldest item and the index `rear` of the unused slot after the newest. -/
structure RingQueue (α : Type) (capacity : ℕ) where
  data : ℕ → α
  front : ℕ
  rear : ℕ
  front_lt : front < capacity + 1
  rear_lt : rear < capacity + 1

namespace RingQueue

variable {α : Type} {n : ℕ}

/-- Modelled from the spec: `create_queue` sets `front = rear = 0` and every slot to `NULL`. -/
def create [Inhabited α] : RingQueue α n :=
  ⟨fun _ => default, 0, 0, Nat.succ_pos n, Nat.succ_pos n⟩

/-- The number of items held: the slots from `front` up to `rear`, around the end. -/
def count (q : RingQueue α n) : ℕ := (q.rear + (n + 1) - q.front) % (n + 1)

/-- The items held, oldest first. -/
def items (q : RingQueue α n) : List α :=
  (List.range q.count).map fun i => q.data ((q.front + i) % (n + 1))

/-- Modelled from the spec: `enqueue` writes `x` to the unused slot and advances `rear`, or
blocks while the slot after `rear` is `front`. -/
def enqueue (q : RingQueue α n) (x : α) : Option (RingQueue α n) :=
  if (q.rear + 1) % (n + 1) = q.front then none
  else some
    { q with
      data := Function.update q.data q.rear x
      rear := (q.rear + 1) % (n + 1)
      rear_lt := Nat.mod_lt _ (Nat.succ_pos n) }

/-- Modelled from the spec: `dequeue` reads the slot at `front` and advances `front`, leaving
the slot as it is, or blocks while `front = rear`. -/
def dequeue (q : RingQueue α n) : Option (α × RingQueue α n) :=
  if q.front = q.rear then none
  else some (q.data q.front,
    { q with
      front := (q.front + 1) % (n + 1)
      front_lt := Nat.mod_lt _ (Nat.succ_pos n) })

/-- Below two rounds of the slots, reducing modulo their number subtracts at most one round. -/
theorem mod_of_lt_two {a : ℕ} (h : a < 2 * (n + 1)) :
    a % (n + 1) = if a < n + 1 then a else a - (n + 1) := by
  split
  · exact Nat.mod_eq_of_lt ‹_›
  · rw [Nat.mod_eq_sub_mod (by omega), Nat.mod_eq_of_lt (by omega)]

/-- Advancing an index by one wraps from the last slot to the first. -/
theorem succ_mod {i : ℕ} (h : i < n + 1) : (i + 1) % (n + 1) = if i = n then 0 else i + 1 := by
  rw [mod_of_lt_two (by omega)]
  split_ifs <;> omega

/-- The count without the modulus: `count` slots from `front` reach `rear`, directly or once
around the end. -/
theorem count_spec (q : RingQueue α n) :
    (q.front ≤ q.rear ∧ q.front + q.count = q.rear) ∨
      (q.rear < q.front ∧ q.front + q.count = q.rear + (n + 1)) := by
  have := q.front_lt
  have := q.rear_lt
  rw [count, mod_of_lt_two (by omega)]
  split <;> omega

theorem count_lt (q : RingQueue α n) : q.count < n + 1 := Nat.mod_lt _ (Nat.succ_pos n)

/-- Up to the count, the slot `i` places after `front` is `rear` only at the count itself. -/
theorem slot_eq_rear {q : RingQueue α n} {i : ℕ} (hi : i ≤ q.count) :
    (q.front + i) % (n + 1) = q.rear ↔ i = q.count := by
  have := q.front_lt
  have := q.rear_lt
  have := q.count_lt
  rw [mod_of_lt_two (by omega)]
  rcases count_spec q with ⟨_, hc⟩ | ⟨_, hc⟩ <;> split <;> omega

@[simp] theorem length_items (q : RingQueue α n) : q.items.length = q.count := by
  simp [items]

@[simp] theorem items_create [Inhabited α] : (create : RingQueue α n).items = [] := by
  simp [items, count, create]

theorem enqueue_eq_none {q : RingQueue α n} {x : α} : q.enqueue x = none ↔ q.count = n := by
  have := q.front_lt
  have := q.rear_lt
  unfold enqueue
  split_ifs with h <;> rw [mod_of_lt_two (by omega)] at h <;>
    rcases count_spec q with ⟨_, hc⟩ | ⟨_, hc⟩ <;> split at h <;> simp <;> omega

theorem dequeue_eq_none {q : RingQueue α n} : q.dequeue = none ↔ q.count = 0 := by
  have := q.front_lt
  unfold dequeue
  rcases count_spec q with ⟨_, hc⟩ | ⟨_, hc⟩ <;> split_ifs <;> simp <;> omega

theorem enqueue_spec {q q' : RingQueue α n} {x : α} (h : q.enqueue x = some q') :
    q.count < n ∧ q'.front = q.front ∧ q'.rear = (q.rear + 1) % (n + 1) ∧
      q'.data = Function.update q.data q.rear x := by
  have hn := enqueue_eq_none.not.mp (h ▸ Option.some_ne_none q')
  unfold enqueue at h
  split at h
  · cases h
  · cases h
    exact ⟨by have := q.count_lt; omega, rfl, rfl, rfl⟩

theorem dequeue_spec {q q' : RingQueue α n} {y : α} (h : q.dequeue = some (y, q')) :
    0 < q.count ∧ y = q.data q.front ∧ q'.front = (q.front + 1) % (n + 1) ∧
      q'.rear = q.rear ∧ q'.data = q.data := by
  have hn := dequeue_eq_none.not.mp (h ▸ Option.some_ne_none (y, q'))
  unfold dequeue at h
  split at h
  · cases h
  · cases h
    exact ⟨Nat.pos_of_ne_zero hn, rfl, rfl, rfl, rfl⟩

theorem count_enqueue {q q' : RingQueue α n} {x : α} (h : q.enqueue x = some q') :
    q'.count = q.count + 1 := by
  obtain ⟨hc, hf, hr, -⟩ := enqueue_spec h
  have := q.front_lt
  rw [succ_mod q.rear_lt] at hr
  rcases count_spec q with ⟨_, _⟩ | ⟨_, _⟩ <;> rcases count_spec q' with ⟨_, _⟩ | ⟨_, _⟩ <;>
    split at hr <;> omega

theorem count_dequeue {q q' : RingQueue α n} {y : α} (h : q.dequeue = some (y, q')) :
    q.count = q'.count + 1 := by
  obtain ⟨hc, -, hf, hr, -⟩ := dequeue_spec h
  have := q.rear_lt
  rw [succ_mod q.front_lt] at hf
  rcases count_spec q with ⟨_, _⟩ | ⟨_, _⟩ <;> rcases count_spec q' with ⟨_, _⟩ | ⟨_, _⟩ <;>
    split at hf <;> omega

/-- Writing the unused slot and advancing `rear` appends `x`. -/
theorem items_enqueue {q q' : RingQueue α n} {x : α} (h : q.enqueue x = some q') :
    q'.items = q.items ++ [x] := by
  obtain ⟨hc, hf, -, hd⟩ := enqueue_spec h
  simp only [items, count_enqueue h, List.range_succ, List.map_append, List.map_singleton, hf, hd]
  congr 1
  · refine List.map_congr_left fun i hi => Function.update_noteq ?_ _ _
    have hi := List.mem_range.mp hi
    exact fun he => absurd ((slot_eq_rear hi.le).mp he) hi.ne
  · rw [(slot_eq_rear le_rfl).mpr rfl, Function.update_same]

/-- Reading `front` and advancing it takes the oldest item off. -/
theorem items_dequeue {q q' : RingQueue α n} {y : α} (h : q.dequeue = some (y, q')) :
    q.items = y :: q'.items := by
  obtain ⟨-, hy, hf, -, hd⟩ := dequeue_spec h
  simp only [items, count_dequeue h, List.range_succ_eq_map, List.map_cons, List.map_map, hf, hd]
  congr 1
  · rw [Nat.add_zero, Nat.mod_eq_of_lt q.front_lt, hy]
  · refine List.map_congr_left fun i _ => ?_
    simp only [Function.comp, Nat.mod_add_mod, Nat.add_right_comm, Nat.add_assoc]

/-! ## Refinement of the list model -/

variable {q : Queue α n} {r : RingQueue α n}

/-- `enqueue` blocks exactly when the list model's does, and otherwise both hold the same items. -/
theorem enqueue_refines (h : r.items = q.buf) (x : α) :
    Option.Rel (fun r' q' => r'.items = q'.buf) (r.enqueue x) (q.enqueue x) := by
  cases hr : r.enqueue x with
  | none =>
    rw [Queue.enqueue_eq_none.mpr (by rw [← h, length_items, enqueue_eq_none.mp hr])]
    exact .none
  | some r' =>
    obtain ⟨q', hq, -, hb⟩ :=
      Queue.enqueue_of_lt (x := x) (by rw [← h, length_items]; exact (enqueue_spec hr).1)
    rw [hq]
    exact .some (by rw [items_enqueue hr, hb, h])

/-- `dequeue` blocks exactly when the list model's does, and otherwise both return the same item
and hold the same items. -/
theorem dequeue_refines (h : r.items = q.buf) :
    Option.Rel (fun a b => a.1 = b.1 ∧ a.2.items = b.2.buf) r.dequeue q.dequeue := by
  cases hr : r.dequeue with
  | none =>
    rw [Queue.dequeue_eq_none.mpr (by rw [← h, ← List.length_eq_zero, length_items,
      dequeue_eq_none.mp hr])]
    exact .none
  | some p =>
    obtain ⟨y, r'⟩ := p
    rcases q with ⟨taken, buf, hbd⟩
    obtain rfl : y :: r'.items = buf := (items_dequeue hr).symm.trans h
    exact .some ⟨rfl, rfl⟩

/-- One call on the ring buffer. -/
def call (r : RingQueue α n) : QueueCall α → Option (Option α × RingQueue α n)
  | .enqueue x => (r.enqueue x).map fun r' => (none, r')
  | .dequeue => r.dequeue.map fun p => (some p.1, p.2)

theorem call_refines (h : r.items = q.buf) (c : QueueCall α) :
    Option.Rel (fun a b => a.1 = b.1 ∧ a.2.items = b.2.buf) (r.call c) (q.call c) := by
  cases c with
  | enqueue x =>
    have hx := enqueue_refines h x
    revert hx
    simp only [call, Queue.call]
    cases r.enqueue x <;> cases q.enqueue x <;> intro hx <;> cases hx
    case none => exact .none
    case some hx => exact .some ⟨rfl, hx⟩
  | dequeue =>
    have hx := dequeue_refines h
    revert hx
    simp only [call, Queue.call]
    cases r.dequeue <;> cases q.dequeue <;> intro hx <;> cases hx
    case none => exact .none
    case some hx => exact .some ⟨congrArg some hx.1, hx.2⟩

/-- The ring buffer refines the list model: from `create_queue`, any sequence of calls on it
blocks where the list model's does and returns the same items, and the ring buffer then holds
what the list model's buffer holds. -/
theorem calls_refine [Inhabited α] (cs : List (QueueCall α)) :
    Option.Rel (fun a b => a.1 = b.1 ∧ a.2.items = b.2.buf)
      (runCalls call (create : RingQueue α n) cs)
      (runCalls Queue.call (Queue.create : Queue α n) cs) :=
  runCalls_rel (R := fun (r : RingQueue α n) (q : Queue α n) => r.items = q.buf)
    (fun _ _ c h => call_refines h c)
    (items_create.trans Queue.create_buf.symm) cs

end RingQueue

end FFoveated
