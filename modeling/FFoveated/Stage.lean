import Mathlib.Data.List.Infix
import FFoveated.Facade

/-!
# Threads as deterministic stages

Each worker thread of the pipeline (`reader_thread`, `decoder_thread`, `encoder_thread`) is a
loop whose only contacts with the other threads are `enqueue` on its output queue and
`dequeue` on its input queue; everything else it does (libav calls) is local. Such a thread is
a function from its local state to its next action.

## Main definitions

- `Act` — the next action: a library call, an append, an extract, or nothing more.
- `Event` — what a run of a thread shows: the calls, the appends and the extracts.
- `Runs` — a run of one thread, with the events it performs.
- `Preserves` — an invariant over the local state and the items taken and put so far.
- `Unterminated`, `Terminated` — a queue history before and after its null sentinel.

## Main results

- `Runs.prefix_of_halt` — a thread is deterministic: any run whose extracts are a prefix of
  those of a run to `halt` is a prefix of that run.
- `Runs.eq_of_takes` — two runs to `halt` that take the same items are the same run.
- `Runs.inv` — a preserved invariant holds along every run.
-/

namespace FFoveated

/-- What a thread does next from its local state: a library call `c` (its result is already in
the label), an append of `o` to its output queue, an extract from its input queue, or nothing
(it returned, or called `pexit`). -/
inductive Act (L I O C : Type)
  | call (c : C) (next : L)
  | put (o : O) (next : L)
  | take (next : I → L)
  | halt

/-- The same action, with the next states renamed by `f`. -/
def Act.map {L L' I O C : Type} (f : L → L') : Act L I O C → Act L' I O C
  | .call c l => .call c (f l)
  | .put o l => .put o (f l)
  | .take k => .take (f ∘ k)
  | .halt => .halt

/-- An observable event of a thread. -/
inductive Event (I O C : Type)
  | call (c : C)
  | put (o : O)
  | take (i : I)

namespace Event

variable {I O C : Type}

/-- The items a list of events takes from the input queue. -/
def takes (tr : List (Event I O C)) : List I :=
  tr.filterMap fun | .take i => some i | _ => none

/-- The items a list of events puts on the output queue. -/
def puts (tr : List (Event I O C)) : List O :=
  tr.filterMap fun | .put o => some o | _ => none

/-- The library calls of a list of events. -/
def calls (tr : List (Event I O C)) : List C :=
  tr.filterMap fun | .call c => some c | _ => none

@[simp] theorem takes_nil : takes ([] : List (Event I O C)) = [] := rfl
@[simp] theorem puts_nil : puts ([] : List (Event I O C)) = [] := rfl
@[simp] theorem calls_nil : calls ([] : List (Event I O C)) = [] := rfl

@[simp] theorem takes_cons_call (c : C) (tr : List (Event I O C)) :
    takes (.call c :: tr) = takes tr := rfl
@[simp] theorem takes_cons_put (o : O) (tr : List (Event I O C)) :
    takes (.put o :: tr) = takes tr := rfl
@[simp] theorem takes_cons_take (i : I) (tr : List (Event I O C)) :
    takes (.take i :: tr) = i :: takes tr := rfl
@[simp] theorem puts_cons_call (c : C) (tr : List (Event I O C)) :
    puts (.call c :: tr) = puts tr := rfl
@[simp] theorem puts_cons_put (o : O) (tr : List (Event I O C)) :
    puts (.put o :: tr) = o :: puts tr := rfl
@[simp] theorem puts_cons_take (i : I) (tr : List (Event I O C)) :
    puts (.take i :: tr) = puts tr := rfl
@[simp] theorem calls_cons_call (c : C) (tr : List (Event I O C)) :
    calls (.call c :: tr) = c :: calls tr := rfl
@[simp] theorem calls_cons_put (o : O) (tr : List (Event I O C)) :
    calls (.put o :: tr) = calls tr := rfl
@[simp] theorem calls_cons_take (i : I) (tr : List (Event I O C)) :
    calls (.take i :: tr) = calls tr := rfl

@[simp] theorem takes_append (tr tr' : List (Event I O C)) :
    takes (tr ++ tr') = takes tr ++ takes tr' := List.filterMap_append _ _ _
@[simp] theorem puts_append (tr tr' : List (Event I O C)) :
    puts (tr ++ tr') = puts tr ++ puts tr' := List.filterMap_append _ _ _
@[simp] theorem calls_append (tr tr' : List (Event I O C)) :
    calls (tr ++ tr') = calls tr ++ calls tr' := List.filterMap_append _ _ _

end Event

/-- `Runs P l tr l'`: from local state `l`, thread `P` can perform the events `tr` and reach
`l'`. An extract may take any item; which one is up to the queue. -/
inductive Runs {L I O C : Type} (P : L → Act L I O C) : L → List (Event I O C) → L → Prop
  | refl (l : L) : Runs P l [] l
  | call {l l' l'' : L} {c : C} {tr : List (Event I O C)} :
      P l = .call c l' → Runs P l' tr l'' → Runs P l (.call c :: tr) l''
  | put {l l' l'' : L} {o : O} {tr : List (Event I O C)} :
      P l = .put o l' → Runs P l' tr l'' → Runs P l (.put o :: tr) l''
  | take {l l'' : L} {k : I → L} {i : I} {tr : List (Event I O C)} :
      P l = .take k → Runs P (k i) tr l'' → Runs P l (.take i :: tr) l''

namespace Runs

variable {L I O C : Type} {P : L → Act L I O C}

theorem trans {l l' l'' : L} {tr tr' : List (Event I O C)} (h : Runs P l tr l')
    (h' : Runs P l' tr' l'') : Runs P l (tr ++ tr') l'' := by
  induction h with
  | refl => exact h'
  | call hp _ ih => exact .call hp (ih h')
  | put hp _ ih => exact .put hp (ih h')
  | take hp _ ih => exact .take hp (ih h')

theorem single_call {l l' : L} {c : C} (h : P l = .call c l') : Runs P l [.call c] l' :=
  .call h (.refl _)

theorem single_put {l l' : L} {o : O} (h : P l = .put o l') : Runs P l [.put o] l' :=
  .put h (.refl _)

theorem single_take {l : L} {k : I → L} (i : I) (h : P l = .take k) :
    Runs P l [.take i] (k i) :=
  .take h (.refl _)

/-- From a state that halts, a thread performs nothing. -/
theorem of_halt {l l' : L} {tr : List (Event I O C)} (hh : P l = .halt)
    (h : Runs P l tr l') : tr = [] ∧ l' = l := by
  cases h with
  | refl => exact ⟨rfl, rfl⟩
  | call hp _ | put hp _ | take hp _ => rw [hh] at hp; cases hp

/-- A thread is deterministic: if `full` runs to a state that halts, every run from the same
state whose extracts agree with those of `full` (followed by anything) is the start of `full`,
and the rest of `full` runs on from where it stopped. -/
theorem resume {l l' lh : L} {tr full : List (Event I O C)} {rest : List I}
    (hfull : Runs P l full lh) (hh : P lh = .halt) (h : Runs P l tr l')
    (ht : Event.takes tr <+: Event.takes full ++ rest) :
    ∃ more, full = tr ++ more ∧ Runs P l' more lh := by
  induction hfull generalizing tr with
  | refl l =>
    obtain ⟨rfl, rfl⟩ := of_halt hh h
    exact ⟨[], rfl, .refl _⟩
  | call hp hr ih =>
    cases h with
    | refl => exact ⟨_, rfl, .call hp hr⟩
    | call hp' h' =>
      cases hp.symm.trans hp'
      exact (ih hh h' ht).imp fun _ h => ⟨congrArg _ h.1, h.2⟩
    | put hp' _ | take hp' _ => cases hp.symm.trans hp'
  | put hp hr ih =>
    cases h with
    | refl => exact ⟨_, rfl, .put hp hr⟩
    | put hp' h' =>
      cases hp.symm.trans hp'
      exact (ih hh h' ht).imp fun _ h => ⟨congrArg _ h.1, h.2⟩
    | call hp' _ | take hp' _ => cases hp.symm.trans hp'
  | take hp hr ih =>
    cases h with
    | refl => exact ⟨_, rfl, .take hp hr⟩
    | take hp' h' =>
      cases hp.symm.trans hp'
      simp only [Event.takes_cons_take, List.cons_append, List.cons_prefix_cons] at ht
      obtain ⟨rfl, ht⟩ := ht
      exact (ih hh h' ht).imp fun _ h => ⟨congrArg _ h.1, h.2⟩
    | call hp' _ | put hp' _ => cases hp.symm.trans hp'

/-- Every run whose extracts agree with those of a run to a halting state is a prefix of it. -/
theorem prefix_of_halt {l l' lh : L} {tr full : List (Event I O C)} {rest : List I}
    (hfull : Runs P l full lh) (hh : P lh = .halt) (h : Runs P l tr l')
    (ht : Event.takes tr <+: Event.takes full ++ rest) : tr <+: full :=
  let ⟨more, he, _⟩ := resume hfull hh h ht
  ⟨more, he.symm⟩

/-- Two runs from one state that take the same items and end where the thread halts are the
same run. -/
theorem eq_of_takes {l l₁ l₂ : L} {tr₁ tr₂ : List (Event I O C)} (h₁ : Runs P l tr₁ l₁)
    (hh₁ : P l₁ = .halt) (h₂ : Runs P l tr₂ l₂) (hh₂ : P l₂ = .halt)
    (ht : Event.takes tr₂ = Event.takes tr₁) : tr₂ = tr₁ := by
  obtain ⟨more, rfl, hm⟩ :=
    h₁.resume hh₁ h₂ (show Event.takes tr₂ <+: Event.takes tr₁ ++ [] by rw [ht, List.append_nil])
  rw [(of_halt hh₂ hm).1, List.append_nil]

/-- A thread `Q` that behaves as `P` on the states `f l` runs every run of `P`. -/
theorem map {L' : Type} {Q : L' → Act L' I O C} {f : L → L'} (hf : ∀ l, Q (f l) = (P l).map f)
    {l l' : L} {tr : List (Event I O C)} (h : Runs P l tr l') : Runs Q (f l) tr (f l') := by
  induction h with
  | refl => exact .refl _
  | call hp _ ih => exact .call (by rw [hf, hp]; rfl) ih
  | put hp _ ih => exact .put (by rw [hf, hp]; rfl) ih
  | take hp _ ih => exact .take (by rw [hf, hp]; rfl) ih

end Runs

/-- `P` spins at `l` on the call `c`: it can repeat `c` any number of times, and every run from
`l` is such a repetition that stays at `l`, so it never appends, extracts or halts. -/
def Spins {L I O C : Type} (P : L → Act L I O C) (l : L) (c : C) : Prop :=
  (∀ n, Runs P l (List.replicate n (.call c)) l) ∧
    ∀ tr l', Runs P l tr l' → l' = l ∧ tr = List.replicate tr.length (.call c)

namespace Runs

variable {L I O C : Type} {P : L → Act L I O C}

/-- A state whose action is a call back to itself spins. -/
theorem of_loop {l : L} {c : C} (hl : P l = .call c l) : Spins P l c := by
  refine ⟨fun n => ?_, fun tr l' h => ?_⟩
  · induction n with
    | zero => exact .refl _
    | succ n ih => exact .call hl ih
  · suffices ∀ l₀, Runs P l₀ tr l' → l₀ = l →
        l' = l ∧ tr = List.replicate tr.length (.call c) from this _ h rfl
    clear h
    intro l₀ h hl₀
    induction h with
    | refl => exact ⟨hl₀, rfl⟩
    | call hp _ ih =>
      subst hl₀
      rw [hl] at hp
      cases hp
      obtain ⟨rfl, ht⟩ := ih rfl
      exact ⟨rfl, by rw [List.length_cons, List.replicate_succ, ← ht]⟩
    | put hp _ | take hp _ => subst hl₀; rw [hl] at hp; cases hp

end Runs

/-- `Inv` reads a thread's local state together with the items it has taken and put so far;
`Preserves P Inv` says every action of `P` keeps it. -/
structure Preserves {L I O C : Type} (P : L → Act L I O C)
    (Inv : L → List I → List O → Prop) : Prop where
  call : ∀ {l l' c ins outs}, P l = .call c l' → Inv l ins outs → Inv l' ins outs
  put : ∀ {l l' o ins outs}, P l = .put o l' → Inv l ins outs → Inv l' ins (outs ++ [o])
  take : ∀ {l k i ins outs}, P l = .take k → Inv l ins outs → Inv (k i) (ins ++ [i]) outs

theorem Runs.inv {L I O C : Type} {P : L → Act L I O C} {Inv : L → List I → List O → Prop}
    (hp : Preserves P Inv) {l l' : L} {tr : List (Event I O C)} (h : Runs P l tr l')
    {ins : List I} {outs : List O} (hi : Inv l ins outs) :
    Inv l' (ins ++ Event.takes tr) (outs ++ Event.puts tr) := by
  induction h generalizing ins outs with
  | refl => simpa using hi
  | call hc _ ih => simpa using ih (hp.call hc hi)
  | put hc _ ih => simpa using ih (hp.put hc hi)
  | take hc _ ih => simpa using ih (hp.take hc hi)

/-! ## The null sentinel -/

section Sentinel

variable {α : Type}

/-- A queue history before its sentinel: every item is non-null. -/
def Unterminated (xs : List (Option α)) : Prop := ∃ ys : List α, xs = ys.map some

/-- A queue history ended by its sentinel: non-null items, then exactly one null, last. -/
def Terminated (xs : List (Option α)) : Prop := ∃ ys : List α, xs = ys.map some ++ [none]

@[simp] theorem unterminated_nil : Unterminated ([] : List (Option α)) := ⟨[], rfl⟩

@[simp] theorem unterminated_append_some {xs : List (Option α)} {x : α} :
    Unterminated (xs ++ [some x]) ↔ Unterminated xs := by
  constructor
  · rintro ⟨ys, h⟩
    refine ⟨ys.dropLast, ?_⟩
    rw [List.map_dropLast, ← h, List.dropLast_concat]
  · rintro ⟨ys, rfl⟩
    exact ⟨ys ++ [x], by simp⟩

theorem Unterminated.terminated {xs : List (Option α)} (h : Unterminated xs) :
    Terminated (xs ++ [none]) := by
  obtain ⟨ys, rfl⟩ := h
  exact ⟨ys, rfl⟩

theorem Unterminated.none_not_mem {xs : List (Option α)} (h : Unterminated xs) : none ∉ xs := by
  obtain ⟨ys, rfl⟩ := h
  simp

theorem Terminated.none_mem {xs : List (Option α)} (h : Terminated xs) : none ∈ xs := by
  obtain ⟨ys, rfl⟩ := h
  simp

theorem Terminated.not_unterminated {xs : List (Option α)} (h : Terminated xs) :
    ¬ Unterminated xs :=
  fun h' => h'.none_not_mem h.none_mem

/-- The sentinel discipline of a queue's history: non-null items, then at most one null, and
nothing after it. -/
def NullLast (xs : List (Option α)) : Prop := Terminated xs ∨ Unterminated xs

/-- Nothing follows the sentinel: a terminated history has no proper extension that still
keeps the discipline. -/
theorem Terminated.eq_of_append {xs ys : List (Option α)} (h : Terminated xs)
    (h' : NullLast (xs ++ ys)) : ys = [] := by
  obtain ⟨zs, rfl⟩ := h
  rcases h' with ⟨ws, hw⟩ | h'
  · rcases List.eq_nil_or_concat ys with rfl | ⟨ys', y, rfl⟩
    · rfl
    · rw [List.concat_eq_append, ← List.append_assoc] at hw
      have h1 := (List.append_inj' hw rfl).1
      exact absurd (h1 ▸ by simp : none ∈ ws.map some) (by simp)
  · exact absurd h'.none_not_mem (by simp)

end Sentinel

/-- A thread that takes from no queue has taken nothing. -/
theorem eq_nil_of_empty : ∀ xs : List Empty, xs = []
  | [] => rfl
  | e :: _ => e.elim

/-! ## Codec calls in a run -/

section CodecCalls

variable {I O α β : Type}

/-- The submissions of a run, in order: the argument of every `avcodec_send_*` call. -/
def sends (tr : List (Event I O (CodecCall α β))) : List (Option α) :=
  (Event.calls tr).filterMap fun | .send x _ => some x | _ => none

/-- The outputs the codec returned in a run, in order: every OK of `avcodec_receive_*`. -/
def received (tr : List (Event I O (CodecCall α β))) : List β :=
  (Event.calls tr).filterMap fun | .receive (.ok y) => some y | _ => none

@[simp] theorem sends_nil : sends ([] : List (Event I O (CodecCall α β))) = [] := rfl
@[simp] theorem received_nil : received ([] : List (Event I O (CodecCall α β))) = [] := rfl

@[simp] theorem sends_append (tr tr' : List (Event I O (CodecCall α β))) :
    sends (tr ++ tr') = sends tr ++ sends tr' := by
  simp [sends, List.filterMap_append]

@[simp] theorem received_append (tr tr' : List (Event I O (CodecCall α β))) :
    received (tr ++ tr') = received tr ++ received tr' := by
  simp [received, List.filterMap_append]

@[simp] theorem sends_cons_put (o : O) (tr : List (Event I O (CodecCall α β))) :
    sends (.put o :: tr) = sends tr := rfl
@[simp] theorem sends_cons_take (i : I) (tr : List (Event I O (CodecCall α β))) :
    sends (.take i :: tr) = sends tr := rfl
@[simp] theorem sends_cons_send (x : Option α) (r : Except AVRet Unit)
    (tr : List (Event I O (CodecCall α β))) :
    sends (.call (.send x r) :: tr) = x :: sends tr := rfl
@[simp] theorem sends_cons_receive (r : Except AVRet β) (tr : List (Event I O (CodecCall α β))) :
    sends (.call (.receive r) :: tr) = sends tr := rfl
@[simp] theorem sends_cons_open (tr : List (Event I O (CodecCall α β))) :
    sends (.call .open :: tr) = sends tr := rfl
@[simp] theorem received_cons_put (o : O) (tr : List (Event I O (CodecCall α β))) :
    received (.put o :: tr) = received tr := rfl
@[simp] theorem received_cons_take (i : I) (tr : List (Event I O (CodecCall α β))) :
    received (.take i :: tr) = received tr := rfl
@[simp] theorem received_cons_send (x : Option α) (r : Except AVRet Unit)
    (tr : List (Event I O (CodecCall α β))) :
    received (.call (.send x r) :: tr) = received tr := rfl
@[simp] theorem received_cons_ok (y : β) (tr : List (Event I O (CodecCall α β))) :
    received (.call (.receive (.ok y)) :: tr) = y :: received tr := rfl
@[simp] theorem received_cons_error (e : AVRet) (tr : List (Event I O (CodecCall α β))) :
    received (.call (.receive (.error e)) :: tr) = received tr := rfl
@[simp] theorem received_cons_open (tr : List (Event I O (CodecCall α β))) :
    received (.call .open :: tr) = received tr := rfl

end CodecCalls

end FFoveated
