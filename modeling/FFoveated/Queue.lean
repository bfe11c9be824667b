import FFoveated.Stage

/-!
# Queues, and a thread's step between them

`helpers.h` declares the queue the threads share: `enqueue` adds an item at the end and blocks
while the queue is full, `dequeue` extracts the first item and blocks while it is empty
(`codec.c` calls them `queue_append` and `queue_extract`). Their implementation is not among
the sources, so the queue is modelled by that documented behaviour. A queue also records the
items already extracted: a ghost history that no thread reads.

## Main definitions

- `Queue` — a bounded FIFO that holds at most its capacity.
- `Queue.enqueue`, `Queue.dequeue` — the two operations, `none` where they block.
- `Act.exec` — one step of a thread between its input queue and its output.
- `History` — what a thread took and put is what one run of it took and put.

## Main results

- `Queue.sent_enqueue`, `Queue.sent_dequeue` — appends only grow the history of the queue,
  and extracting leaves it as it is: nothing is lost, duplicated or reordered.
- `Act.exec_cases`, `Act.exec_eq_none` — what a step between queues does, and when it blocks.
- `History.exec` — a step between queues extends a run of the thread.
-/

namespace FFoveated

/-- Modelled from the spec: a queue of `helpers.h`, created with room for `capacity` items, as
its users see it: the items it holds, oldest first, and the ghost list `taken` of the items
already extracted. `queue.c` is not among the sources; the declarations of `helpers.h` and the
spec say how it behaves. -/
structure Queue (α : Type) (capacity : ℕ) where
  taken : List α
  buf : List α
  bounded : buf.length ≤ capacity

namespace Queue

variable {α : Type} {n : ℕ}

/-- Modelled from the spec: `create_queue` (`queue_init` in `codec.c`), an empty queue. -/
def create : Queue α n := ⟨[], [], Nat.zero_le _⟩

/-- Every item ever appended, in order: those extracted, then those held. -/
def sent (q : Queue α n) : List α := q.taken ++ q.buf

/-- Modelled from the spec: `enqueue` appends `x`, or blocks while the queue is full. -/
def enqueue (q : Queue α n) (x : α) : Option (Queue α n) :=
  if h : q.buf.length < n then
    some ⟨q.taken, q.buf ++ [x], by rw [List.length_append]; exact h⟩
  else none

/-- Modelled from the spec: `dequeue` extracts the first item, or blocks while the queue is
empty. -/
def dequeue : Queue α n → Option (α × Queue α n)
  | ⟨_, [], _⟩ => none
  | ⟨taken, x :: rest, h⟩ => some (x, ⟨taken ++ [x], rest, Nat.le_of_succ_le h⟩)

@[simp] theorem create_taken : (create : Queue α n).taken = [] := rfl
@[simp] theorem create_buf : (create : Queue α n).buf = [] := rfl
@[simp] theorem create_sent : (create : Queue α n).sent = [] := rfl

variable {q q' : Queue α n} {x : α}

theorem enqueue_spec (h : q.enqueue x = some q') :
    q.buf.length < n ∧ q'.taken = q.taken ∧ q'.buf = q.buf ++ [x] := by
  unfold enqueue at h
  split at h
  · cases h
    exact ⟨‹_›, rfl, rfl⟩
  · cases h

theorem enqueue_eq_none : q.enqueue x = none ↔ n ≤ q.buf.length := by
  unfold enqueue
  split <;> simp only [reduceCtorEq, true_iff, false_iff] <;> omega

theorem enqueue_of_lt (h : q.buf.length < n) :
    ∃ q', q.enqueue x = some q' ∧ q'.taken = q.taken ∧ q'.buf = q.buf ++ [x] :=
  ⟨⟨q.taken, q.buf ++ [x], by rw [List.length_append]; exact h⟩,
    by simp only [enqueue, h, dite_true], rfl, rfl⟩

theorem dequeue_spec (h : q.dequeue = some (x, q')) :
    q.buf = x :: q'.buf ∧ q'.taken = q.taken ++ [x] := by
  rcases q with ⟨_, _ | ⟨y, rest⟩, _⟩
  · cases h
  · simp only [dequeue, Option.some.injEq, Prod.mk.injEq] at h
    obtain ⟨rfl, rfl⟩ := h
    exact ⟨rfl, rfl⟩

theorem dequeue_eq_none : q.dequeue = none ↔ q.buf = [] := by
  rcases q with ⟨_, _ | _, _⟩ <;> simp [dequeue]

theorem sent_enqueue (h : q.enqueue x = some q') : q'.sent = q.sent ++ [x] := by
  obtain ⟨-, ht, hb⟩ := enqueue_spec h
  simp [sent, ht, hb]

theorem taken_enqueue (h : q.enqueue x = some q') : q'.taken = q.taken :=
  (enqueue_spec h).2.1

theorem sent_dequeue (h : q.dequeue = some (x, q')) : q'.sent = q.sent := by
  obtain ⟨hb, ht⟩ := dequeue_spec h
  simp [sent, ht, hb]

/-- What a queue's consumer has taken is the start of what was appended to it. -/
theorem taken_prefix_sent (q : Queue α n) : q.taken <+: q.sent :=
  List.prefix_append _ _

/-- The consumer of a drained queue has taken all that was appended to it. -/
theorem taken_eq_sent (h : q.buf = []) : q.taken = q.sent := by
  rw [sent, h, List.append_nil]

/-- A queue whose consumer has taken the null, and whose producer appends nothing after a
null, is empty. -/
theorem buf_eq_nil {q : Queue (Option α) n} (ht : Terminated q.taken)
    (hs : NullLast q.sent) : q.buf = [] :=
  ht.eq_of_append hs

end Queue

/-! ## A thread between queues -/

section Exec

variable {L I O C Out : Type}

/-- One step of a thread whose next action is `a`, between its input queue `qi` and its output
`out`, where `push` appends one item to the output: the next local state, input queue and
output, or `none` when the thread is blocked (output full, input empty) or has halted. -/
def Act.exec {n : ℕ} (push : Out → O → Option Out) :
    Act L I O C → Queue I n → Out → Option (L × Queue I n × Out)
  | .call _ l, qi, out => some (l, qi, out)
  | .put o l, qi, out => (push out o).map fun out' => (l, qi, out')
  | .take k, qi, out => qi.dequeue.map fun r => (k r.1, r.2, out)
  | .halt, _, _ => none

variable {n : ℕ} {push : Out → O → Option Out} {a : Act L I O C} {qi qi' : Queue I n}
  {out out' : Out} {l' : L}

theorem Act.exec_cases (h : a.exec push qi out = some (l', qi', out')) :
    (∃ c, a = .call c l' ∧ qi' = qi ∧ out' = out) ∨
    (∃ o, a = .put o l' ∧ qi' = qi ∧ push out o = some out') ∨
    (∃ k i, a = .take k ∧ l' = k i ∧ qi.dequeue = some (i, qi') ∧ out' = out) := by
  cases a with
  | call c l =>
    simp only [exec, Option.some.injEq, Prod.mk.injEq] at h
    obtain ⟨rfl, rfl, rfl⟩ := h
    exact .inl ⟨c, rfl, rfl, rfl⟩
  | put o l =>
    simp only [exec, Option.map_eq_some', Prod.mk.injEq] at h
    obtain ⟨_, hp, rfl, rfl, rfl⟩ := h
    exact .inr (.inl ⟨o, rfl, rfl, hp⟩)
  | take k =>
    simp only [exec, Option.map_eq_some', Prod.mk.injEq] at h
    obtain ⟨⟨i, _⟩, hd, rfl, rfl, rfl⟩ := h
    exact .inr (.inr ⟨k, i, rfl, rfl, hd, rfl⟩)
  | halt => cases h

theorem Act.exec_eq_none : a.exec push qi out = none ↔
    a = .halt ∨ (∃ o l, a = .put o l ∧ push out o = none) ∨ (∃ k, a = .take k ∧ qi.buf = []) := by
  cases a <;> simp [exec, Queue.dequeue_eq_none]

/-- A step keeps what was appended to the input queue, and changes the output only by one
append. -/
theorem Act.exec_frame (h : a.exec push qi out = some (l', qi', out')) :
    qi'.sent = qi.sent ∧ (out' = out ∨ ∃ o, push out o = some out') := by
  rcases Act.exec_cases h with ⟨c, -, rfl, rfl⟩ | ⟨o, -, rfl, hp⟩ | ⟨k, i, -, -, hd, rfl⟩
  · exact ⟨rfl, .inl rfl⟩
  · exact ⟨rfl, .inr ⟨o, hp⟩⟩
  · exact ⟨Queue.sent_dequeue hd, .inl rfl⟩

/-- Renaming the next states of an action renames those of its step. -/
theorem Act.exec_map {L' : Type} (f : L → L') :
    (a.map f).exec push qi out = (a.exec push qi out).map fun r => (f r.1, r.2) := by
  cases a <;> simp [Act.map, Act.exec, Option.map_map, Function.comp_def]

/-- A thread that does not extract leaves its input queue as it is. -/
theorem Act.exec_input (h : a.exec push qi out = some (l', qi', out'))
    (hn : ∀ k, a ≠ .take k) : qi' = qi := by
  rcases Act.exec_cases h with ⟨c, -, rfl, -⟩ | ⟨o, -, rfl, -⟩ | ⟨k, i, hk, -⟩
  · rfl
  · rfl
  · exact absurd hk (hn k)

/-- `History P R l₀ l ins out`: the items `ins` that thread `P` took, and its output `out`,
are those of one run from `l₀` to `l`; `R out outs` says that `out` holds the appends `outs`. -/
def History (P : L → Act L I O C) (R : Out → List O → Prop) (l₀ l : L) (ins : List I)
    (out : Out) : Prop :=
  ∃ tr, Runs P l₀ tr l ∧ Event.takes tr = ins ∧ R out (Event.puts tr)

theorem History.exec {P : L → Act L I O C} {R : Out → List O → Prop} {l₀ l : L}
    (hpush : ∀ {out out' o outs}, push out o = some out' → R out outs → R out' (outs ++ [o]))
    (h : History P R l₀ l qi.taken out) (he : (P l).exec push qi out = some (l', qi', out')) :
    History P R l₀ l' qi'.taken out' := by
  obtain ⟨tr, hr, ht, ho⟩ := h
  rcases Act.exec_cases he with ⟨c, hc, rfl, rfl⟩ | ⟨o, hc, rfl, hp⟩ | ⟨k, i, hc, rfl, hd, rfl⟩
  · exact ⟨_, hr.trans (.single_call hc), by simp [ht], by simpa using ho⟩
  · exact ⟨_, hr.trans (.single_put hc), by simp [ht], by simpa using hpush hp ho⟩
  · exact ⟨_, hr.trans (.single_take i hc), by simp [ht, (Queue.dequeue_spec hd).2],
      by simpa using ho⟩

/-- A history is the start of a run of the thread, so a preserved invariant holds of it. -/
theorem History.inv {P : L → Act L I O C} {R : Out → List O → Prop} {l₀ l : L} {ins : List I}
    {Inv : L → List I → List O → Prop} (hp : Preserves P Inv) (h₀ : Inv l₀ [] [])
    (h : History P R l₀ l ins out) : ∃ outs, R out outs ∧ Inv l ins outs := by
  obtain ⟨tr, hr, rfl, ho⟩ := h
  exact ⟨_, ho, by simpa using hr.inv hp h₀⟩

end Exec

/-- The output of a thread that appends to one queue: the queue, holding the appends. -/
def Queue.Holds {α : Type} {n : ℕ} (q : Queue α n) (outs : List α) : Prop := q.sent = outs

theorem Queue.holds_enqueue {α : Type} {n : ℕ} {q q' : Queue α n} {x : α} {outs : List α}
    (h : q.enqueue x = some q') (ho : q.Holds outs) : q'.Holds (outs ++ [x]) := by
  rw [Holds, Queue.sent_enqueue h, ho]

/-- A producer's history reads only what was appended to its queue. -/
theorem History.of_sent {L I C α : Type} {n : ℕ} {P : L → Act L I (Option α) C} {l₀ l : L}
    {ins : List I} {q q' : Queue (Option α) n} (h : History P Queue.Holds l₀ l ins q)
    (hq : q'.sent = q.sent) :
    History P Queue.Holds l₀ l ins q' :=
  let ⟨tr, hr, ht, ho⟩ := h
  ⟨tr, hr, ht, hq.trans ho⟩

/-- A step between two queues, appending by `enqueue`, leaves what was appended to the input
and what was extracted from the output, and only extends what was appended to the output. -/
theorem Act.exec_enqueue_frame {L I O C : Type} {m n : ℕ} {a : Act L I O C} {qi qi' : Queue I m}
    {qo qo' : Queue O n} {l : L} (h : a.exec Queue.enqueue qi qo = some (l, qi', qo')) :
    qi'.sent = qi.sent ∧ qo'.taken = qo.taken ∧ qo.sent <+: qo'.sent := by
  obtain ⟨hi, rfl | ⟨o, ho⟩⟩ := Act.exec_frame h
  · exact ⟨hi, rfl, List.prefix_refl _⟩
  · exact ⟨hi, Queue.taken_enqueue ho, by rw [Queue.sent_enqueue ho]; exact List.prefix_append _ _⟩

end FFoveated
