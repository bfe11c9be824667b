import FFoveated.Decoder

/-!
# `encoder_thread`

The foveated re-encoder of `codec.c`: it receives packets first, and on `EAGAIN` extracts a
frame, attaches the foveation descriptor as side data, submits the frame and stamps the lag
queue. It breaks out of its loop on the null frame without submitting it. Packet, side data
and timestamp allocation are taken to succeed.

The window state that `foveation_descriptor` reads and the clock behind
`av_gettime_relative` belong to the environment, and the thread reads them when it runs: in a
run, `wc n` and `clock n` are what it read for its `n`-th frame.

## Main definitions

- `foveationDescriptor` — the pointer fallback of `foveation_descriptor`.
- `withDescriptor` — the frame as it is submitted.
- `EncoderPc`, `encoderThread` — `encoder_thread` as a stage.
- `EncoderPc.Inv` — what holds of the encoder under the facade contract.
- `EncoderPc.Stamps` — one timestamp per frame taken, for any codec.
- `EncodesFrames` — the encoder's contract on `f₁ … fₙ, null`.

## Main results

- `encoderThread_preserves` — the invariant is kept by every step.
- `encoderThread_encodes` — on `f₁ … fₙ, null` the encoder meets `EncodesFrames`, and every
  run on that input is a prefix of that one run.
- `encoderThread_stamps` — whatever the codec answers, `lag_queue` gets the clock read for each
  frame taken, in order.
- `receiveLoops_spin` — a receive answer the `if` chains do not name is an idle iteration, and
  `ENOMEM` makes every receive loop spin.
-/

namespace FFoveated

/-- The fields of the window context `foveation_descriptor` reads: the pointer position that
`SDL_GetMouseState` stores in it, and the size `SDL_GetWindowSize` reports. -/
structure WindowContext where
  mouseX : Int
  mouseY : Int
  width : Int
  height : Int
  deriving DecidableEq, Repr

/-- `foveation_descriptor` built without `ET`: the pointer position scaled by the window size,
spread `0.3` and offset `20`. Lean 4.14 has no single-precision float, so the C `float`
arithmetic is done in 64-bit `Float`: `0.3` is not rounded to the `float` `0.30000001192092896`.
No result depends on the values. -/
def foveationDescriptor (wc : WindowContext) : Descriptor :=
  ⟨Float.ofInt wc.mouseX / Float.ofInt wc.width, Float.ofInt wc.mouseY / Float.ofInt wc.height,
    0.3, 20⟩

/-- `descr_size`, four `float`s. -/
def descrSize : ℕ := 4 * 4

/-- The frame `encoder_thread` submits: `av_frame_new_side_data` appends an entry of type
`AV_FRAME_DATA_FOVEATION_DESCRIPTOR` and size `descr_size`, its data is set to the descriptor,
and `pict_type` is reset. -/
def withDescriptor (frame : AVFrame) (descr : Descriptor) : AVFrame :=
  { frame with
    sideData := frame.sideData ++ [⟨.foveationDescriptor, descrSize, descr⟩]
    pictType := 0 }

/-- `supply_frame`. -/
def supplyFrame : Except AVRet Unit → Option String :=
  supplyCheck "API break: encoder send and receive returns EAGAIN"
    "Encoder has already been flushed"

/-- What `encoder_thread` appends: a packet (or the null) on `packet_queue`, or a timestamp on
`lag_queue`. -/
inductive EncoderOut
  | packet (p : Option AVPacket)
  | lag (t : Option Int)

/-- Where `encoder_thread` is, with its codec context `avctx` and the number `n` of frames it
has submitted: at `avcodec_receive_packet`, about to append a packet, about to extract a
frame, about to annotate and submit a frame, about to stamp `lag_queue`, about to append the
final null, returned, or stopped by `pexit`. -/
inductive EncoderPc (σ : Type)
  | receive (avctx : σ) (n : ℕ)
  | append (avctx : σ) (n : ℕ) (packet : AVPacket)
  | extract (avctx : σ) (n : ℕ)
  | supply (avctx : σ) (n : ℕ) (frame : AVFrame)
  | stamp (avctx : σ) (n : ℕ)
  | flush
  | done
  | exit (msg : String)

namespace EncoderPc

variable {σ : Type}

/-- Where the `if` chain after `avcodec_receive_packet` goes on the answer `r`; a code it
does not name falls through to the next iteration. -/
def afterReceive (r : Except AVRet AVPacket) (avctx : σ) (n : ℕ) : EncoderPc σ :=
  match r with
  | .ok packet => .append avctx n packet
  | .error .eagain => .extract avctx n
  | .error .eof => .flush
  | .error .einval => .exit "avcodec_receive_packet failed"
  | .error _ => .receive avctx n

/-- Where the loop goes on the frame it extracted: the null breaks out of the loop. -/
def afterExtract (avctx : σ) (n : ℕ) : Option AVFrame → EncoderPc σ
  | none => .flush
  | some frame => .supply avctx n frame

/-- The thread has called `pexit`. -/
def isExit : EncoderPc σ → Bool
  | .exit _ => true
  | _ => false

/-- Where the loop goes after `supply_frame` saw the result `r`. -/
def afterSupply (r : Except AVRet Unit) (avctx : σ) (n : ℕ) : EncoderPc σ :=
  match supplyFrame r with
  | some msg => .exit msg
  | none => .stamp avctx n

end EncoderPc

/-- `encoder_thread` of `codec.c`, with the environment's window states `wc` and clock. -/
def encoderThread {σ : Type} (c : Codec σ AVFrame AVPacket) (wc : ℕ → WindowContext)
    (clock : ℕ → Int) :
    EncoderPc σ → Act (EncoderPc σ) (Option AVFrame) EncoderOut (CodecCall AVFrame AVPacket)
  | .receive avctx n =>
    .call (.receive (c.receive avctx).1) (.afterReceive (c.receive avctx).1 (c.receive avctx).2 n)
  | .append avctx n packet => .put (.packet (some packet)) (.receive avctx n)
  | .extract avctx n => .take (.afterExtract avctx n)
  | .supply avctx n frame =>
    let sub := some (withDescriptor frame (foveationDescriptor (wc n)))
    .call (.send sub (c.send avctx sub).1)
      (.afterSupply (c.send avctx sub).1 (c.send avctx sub).2 n)
  | .stamp avctx n => .put (.lag (some (clock n))) (.receive avctx (n + 1))
  | .flush => .put (.packet none) .done
  | .done | .exit _ => .halt

namespace EncoderOut

/-- The items of `packet_queue` among the encoder's appends. -/
def packets (outs : List EncoderOut) : List (Option AVPacket) :=
  outs.filterMap fun | .packet p => some p | .lag _ => none

/-- The items of `lag_queue` among the encoder's appends. -/
def lags (outs : List EncoderOut) : List (Option Int) :=
  outs.filterMap fun | .lag t => some t | .packet _ => none

@[simp] theorem packets_nil : packets [] = [] := rfl
@[simp] theorem lags_nil : lags [] = [] := rfl
@[simp] theorem packets_cons_packet (p : Option AVPacket) (outs : List EncoderOut) :
    packets (.packet p :: outs) = p :: packets outs := rfl
@[simp] theorem packets_cons_lag (t : Option Int) (outs : List EncoderOut) :
    packets (.lag t :: outs) = packets outs := rfl
@[simp] theorem lags_cons_packet (p : Option AVPacket) (outs : List EncoderOut) :
    lags (.packet p :: outs) = lags outs := rfl
@[simp] theorem lags_cons_lag (t : Option Int) (outs : List EncoderOut) :
    lags (.lag t :: outs) = t :: lags outs := rfl
@[simp] theorem packets_append (outs outs' : List EncoderOut) :
    packets (outs ++ outs') = packets outs ++ packets outs' := List.filterMap_append _ _ _
@[simp] theorem lags_append (outs outs' : List EncoderOut) :
    lags (outs ++ outs') = lags outs ++ lags outs' := List.filterMap_append _ _ _

end EncoderOut

section Contract

variable {σ : Type} {c : Codec σ AVFrame AVPacket} {flushed : σ → Prop}
  {wc : ℕ → WindowContext} {clock : ℕ → Int}

/-- The encoder's invariant, read with the frames it took and what it appended. Its codec is
never flushed, since the null frame is never submitted; no null reaches `packet_queue` before
`done`, and none ever reaches `lag_queue`; `pexit` is never reached. -/
def EncoderPc.Inv (c : Codec σ AVFrame AVPacket) (flushed : σ → Prop) :
    EncoderPc σ → List (Option AVFrame) → List EncoderOut → Prop
  | .receive s _, ins, outs | .append s _ _, ins, outs | .stamp s _, ins, outs =>
    Unterminated ins ∧ ¬ flushed s ∧ Unterminated (EncoderOut.packets outs) ∧
      Unterminated (EncoderOut.lags outs)
  | .extract s _, ins, outs | .supply s _ _, ins, outs =>
    Unterminated ins ∧ ¬ flushed s ∧ c.Accepts s ∧ Unterminated (EncoderOut.packets outs) ∧
      Unterminated (EncoderOut.lags outs)
  | .flush, ins, outs =>
    Terminated ins ∧ Unterminated (EncoderOut.packets outs) ∧ Unterminated (EncoderOut.lags outs)
  | .done, ins, outs =>
    Terminated ins ∧ Terminated (EncoderOut.packets outs) ∧ Unterminated (EncoderOut.lags outs)
  | .exit _, _, _ => False

theorem EncoderPc.inv_start {s : σ} (h : ¬ flushed s) :
    (EncoderPc.receive s 0).Inv c flushed [] [] :=
  ⟨unterminated_nil, h, unterminated_nil, unterminated_nil⟩

theorem encoderThread_preserves (hc : c.Obeys flushed) :
    Preserves (encoderThread c wc clock) (EncoderPc.Inv c flushed) where
  call {l l' _ ins outs} h hi := by
    cases l with
    | receive s n =>
      simp only [encoderThread, Act.call.injEq] at h
      obtain ⟨-, rfl⟩ := h
      obtain ⟨hu, hns, hp, hl⟩ := hi
      have hns' := (hc.receive_flushed s).not.mpr hns
      rcases hc.receive_cases s with ⟨y, hy⟩ | hy | hy <;>
        simp only [hy, EncoderPc.afterReceive]
      · exact ⟨hu, hns', hp, hl⟩
      · exact ⟨hu, hns', (hc.eagain s hy).1, hp, hl⟩
      · exact absurd (hc.eof s hy) hns
    | supply s n f =>
      simp only [encoderThread, Act.call.injEq] at h
      obtain ⟨-, rfl⟩ := h
      obtain ⟨hu, hns, hacc, hp, hl⟩ := hi
      simp only [hacc _, EncoderPc.afterSupply, supplyFrame, supplyCheck]
      exact ⟨hu, (hc.send_some s _ (hacc _)).not.mpr hns, hp, hl⟩
    | append | extract | stamp | flush | done | exit => simp [encoderThread] at h
  put {l l' _ ins outs} h hi := by
    cases l with
    | append s n _ | stamp s n =>
      simp only [encoderThread, Act.put.injEq] at h
      obtain ⟨rfl, rfl⟩ := h
      obtain ⟨hu, hns, hp, hl⟩ := hi
      exact ⟨hu, hns, by simpa using hp, by simpa using hl⟩
    | flush =>
      simp only [encoderThread, Act.put.injEq] at h
      obtain ⟨rfl, rfl⟩ := h
      obtain ⟨ht, hp, hl⟩ := hi
      exact ⟨ht, by simpa using hp.terminated, by simpa using hl⟩
    | receive | extract | supply | done | exit => simp [encoderThread] at h
  take {l _ i ins outs} h hi := by
    cases l with
    | extract s n =>
      simp only [encoderThread, Act.take.injEq] at h
      subst h
      obtain ⟨hu, hns, hacc, hp, hl⟩ := hi
      cases i with
      | none => exact ⟨hu.terminated, hp, hl⟩
      | some f => exact ⟨unterminated_append_some.mpr hu, hns, hacc, hp, hl⟩
    | receive | append | supply | stamp | flush | done | exit => simp [encoderThread] at h

/-- An encoder that has taken the null never extracts again. -/
theorem EncoderPc.Inv.not_take {l : EncoderPc σ} {ins : List (Option AVFrame)}
    {outs : List EncoderOut} (hi : l.Inv c flushed ins outs) (ht : Terminated ins)
    (k : Option AVFrame → EncoderPc σ) : encoderThread c wc clock l ≠ .take k := by
  cases l with
  | extract => exact fun _ => ht.not_unterminated hi.1
  | _ => simp [encoderThread]

theorem EncoderPc.Inv.isExit {l : EncoderPc σ} {ins : List (Option AVFrame)}
    {outs : List EncoderOut} (hi : l.Inv c flushed ins outs) : l.isExit = false := by
  cases l with
  | exit => exact hi.elim
  | _ => rfl

/-- The encoder puts the null on `packet_queue` last, and only when it returns. -/
theorem EncoderPc.Inv.packets {l : EncoderPc σ} {ins : List (Option AVFrame)}
    {outs : List EncoderOut} (hi : l.Inv c flushed ins outs) :
    (l ≠ .done ∧ Unterminated (EncoderOut.packets outs)) ∨
      (l = .done ∧ Terminated (EncoderOut.packets outs)) := by
  cases l with
  | done => exact .inr ⟨rfl, hi.2.1⟩
  | exit => exact hi.elim
  | extract | supply => exact .inl ⟨by simp, hi.2.2.2.1⟩
  | receive | append | stamp => exact .inl ⟨by simp, hi.2.2.1⟩
  | flush => exact .inl ⟨by simp, hi.2.1⟩

/-! ## The timestamps -/

/-- What `encoder_thread` has stamped, whatever its codec answers: after `n` submissions it has
taken `n` frames (`n + 1` with the one in hand) and appended `clock 0 … clock (n - 1)` to
`lag_queue`; out of its loop, one timestamp for each frame it took. -/
def EncoderPc.Stamps (clock : ℕ → Int) :
    EncoderPc σ → List (Option AVFrame) → List EncoderOut → Prop
  | .receive _ n, ins, outs | .append _ n _, ins, outs | .extract _ n, ins, outs =>
    (ins.filterMap id).length = n ∧ EncoderOut.lags outs = (List.range n).map (some ∘ clock)
  | .supply _ n _, ins, outs | .stamp _ n, ins, outs =>
    (ins.filterMap id).length = n + 1 ∧ EncoderOut.lags outs = (List.range n).map (some ∘ clock)
  | .flush, ins, outs | .done, ins, outs =>
    EncoderOut.lags outs = (List.range (ins.filterMap id).length).map (some ∘ clock)
  | .exit _, _, _ => True

theorem encoderThread_stamps : Preserves (encoderThread c wc clock) (EncoderPc.Stamps clock) where
  call {l l' _ ins outs} h hi := by
    cases l with
    | receive s n =>
      simp only [encoderThread, Act.call.injEq] at h
      obtain ⟨-, rfl⟩ := h
      unfold EncoderPc.afterReceive
      split <;> simp_all [EncoderPc.Stamps]
    | supply s n f =>
      simp only [encoderThread, Act.call.injEq] at h
      obtain ⟨-, rfl⟩ := h
      unfold EncoderPc.afterSupply
      split <;> simp_all [EncoderPc.Stamps]
    | append | extract | stamp | flush | done | exit => simp [encoderThread] at h
  put {l l' _ ins outs} h hi := by
    cases l with
    | append s n y =>
      simp only [encoderThread, Act.put.injEq] at h
      obtain ⟨rfl, rfl⟩ := h
      simpa [EncoderPc.Stamps] using hi
    | stamp s n =>
      simp only [encoderThread, Act.put.injEq] at h
      obtain ⟨rfl, rfl⟩ := h
      obtain ⟨hf, ht⟩ := hi
      exact ⟨hf, by simp [ht, List.range_succ]⟩
    | flush =>
      simp only [encoderThread, Act.put.injEq] at h
      obtain ⟨rfl, rfl⟩ := h
      simpa [EncoderPc.Stamps] using hi
    | receive | extract | supply | done | exit => simp [encoderThread] at h
  take {l _ i ins outs} h hi := by
    cases l with
    | extract s n =>
      simp only [encoderThread, Act.take.injEq] at h
      subst h
      obtain ⟨hf, ht⟩ := hi
      cases i <;> simp [EncoderPc.afterExtract, EncoderPc.Stamps, hf, ht]
    | receive | append | supply | stamp | flush | done | exit => simp [encoderThread] at h

/-! ## Runs on a finite input -/

/-- The submissions and the `lag_queue` appends of an encoder run, in order. -/
def submitsAndStamps (tr : List (Event (Option AVFrame) EncoderOut (CodecCall AVFrame AVPacket))) :
    List (Option AVFrame ⊕ Option Int) :=
  tr.filterMap fun
    | .call (.send x _) => some (.inl x)
    | .put (.lag t) => some (.inr t)
    | _ => none

@[simp] theorem submitsAndStamps_append
    (tr tr' : List (Event (Option AVFrame) EncoderOut (CodecCall AVFrame AVPacket))) :
    submitsAndStamps (tr ++ tr') = submitsAndStamps tr ++ submitsAndStamps tr' :=
  List.filterMap_append _ _ _

/-- The encoder's contract on the frames `f₁ … fₙ`, then the null. It extracts exactly those.
It submits `f₁ … fₙ` in order, the `i`-th with its picture data and its own side data as
extracted, `pict_type` reset, and after its own side data one more entry: tagged
`AV_FRAME_DATA_FOVEATION_DESCRIPTOR`, of size 16, whose payload is the descriptor of the window
state `wc i` its own iteration saw. After the `i`-th submission, before the next, it appends
the `i`-th timestamp to `lag_queue`. On `packet_queue` it appends exactly the packets the codec
returned, in order, then one null. -/
def EncodesFrames (wc : ℕ → WindowContext) (clock : ℕ → Int) (fs : List AVFrame)
    (tr : List (Event (Option AVFrame) EncoderOut (CodecCall AVFrame AVPacket))) : Prop :=
  Event.takes tr = fs.map some ++ [none] ∧
  submitsAndStamps tr = (fs.mapIdx fun i f =>
    [.inl (some { f with
      sideData := f.sideData ++
        [{ type := .foveationDescriptor, size := 16, data := foveationDescriptor (wc i) }]
      pictType := 0 }),
     .inr (some (clock i))]).flatten ∧
  EncoderOut.packets (Event.puts tr) = (received tr).map some ++ [none]

theorem encoderThread_run_ok {s : σ} {n : ℕ} {y : AVPacket} (hy : (c.receive s).1 = .ok y) :
    Runs (encoderThread c wc clock) (.receive s n)
      [.call (.receive (.ok y)), .put (.packet (some y))] (.receive (c.receive s).2 n) := by
  have h : encoderThread c wc clock (.receive s n) =
      .call (.receive (.ok y)) (.append (c.receive s).2 n y) := by
    simp only [encoderThread, hy, EncoderPc.afterReceive]
  exact .call h (.put rfl (.refl _))

theorem encoderThread_run_frame {s : σ} {n : ℕ} (hy : (c.receive s).1 = .error .eagain)
    (hacc : c.Accepts (c.receive s).2) (f : AVFrame) :
    Runs (encoderThread c wc clock) (.receive s n)
      [.call (.receive (.error .eagain)), .take (some f),
        .call (.send (some (withDescriptor f (foveationDescriptor (wc n)))) (.ok ())),
        .put (.lag (some (clock n)))]
      (.receive (c.send (c.receive s).2 (some (withDescriptor f (foveationDescriptor (wc n))))).2
        (n + 1)) := by
  have h : encoderThread c wc clock (.receive s n) =
      .call (.receive (.error .eagain)) (.extract (c.receive s).2 n) := by
    simp only [encoderThread, hy, EncoderPc.afterReceive]
  have h' : encoderThread c wc clock (.supply (c.receive s).2 n f) =
      .call (.send (some (withDescriptor f (foveationDescriptor (wc n)))) (.ok ()))
        (.stamp (c.send (c.receive s).2 (some (withDescriptor f (foveationDescriptor (wc n))))).2
          n) := by
    simp [encoderThread, hacc _, EncoderPc.afterSupply, supplyFrame, supplyCheck]
  exact .call h (.take (i := some f) rfl (.call h' (.put rfl (.refl _))))

theorem encoderThread_run_null {s : σ} {n : ℕ} (hy : (c.receive s).1 = .error .eagain) :
    Runs (encoderThread c wc clock) (.receive s n)
      [.call (.receive (.error .eagain)), .take none, .put (.packet none)] .done := by
  have h : encoderThread c wc clock (.receive s n) =
      .call (.receive (.error .eagain)) (.extract (c.receive s).2 n) := by
    simp only [encoderThread, hy, EncoderPc.afterReceive]
  exact .call h (.take (i := none) rfl (.put rfl (.refl _)))

variable {pending : σ → ℕ}

/-- Under the contract the encoder appends every OK answer until the codec answers `EAGAIN` or
`EOF`; receiving does not change whether it is flushed. -/
theorem encoderThread_outputs (hc : c.Obeys flushed) (hf : c.Finite pending)
    (wc : ℕ → WindowContext) (clock : ℕ → Int) (s : σ) (n : ℕ) :
    ∃ tr s', Runs (encoderThread c wc clock) (.receive s n) tr (.receive s' n) ∧
      Event.takes tr = [] ∧ submitsAndStamps tr = [] ∧
      EncoderOut.packets (Event.puts tr) = (received tr).map some ∧
      ((c.receive s').1 = .error .eagain ∨ (c.receive s').1 = .error .eof) ∧
      (flushed s' ↔ flushed s) := by
  suffices ∀ m s, pending s < m → ∃ tr s', Runs (encoderThread c wc clock) (.receive s n) tr
      (.receive s' n) ∧ Event.takes tr = [] ∧ submitsAndStamps tr = [] ∧
      EncoderOut.packets (Event.puts tr) = (received tr).map some ∧
      ((c.receive s').1 = .error .eagain ∨ (c.receive s').1 = .error .eof) ∧
      (flushed s' ↔ flushed s) from this _ s (Nat.lt_succ_self _)
  intro m
  induction m with
  | zero => intro s h; omega
  | succ m ih =>
    intro s hm
    rcases hc.receive_cases s with ⟨y, hy⟩ | hy | hy
    · have hlt := hf.receive_ok s y hy
      obtain ⟨tr, s', hr, h1, h2, h3, h4, h5⟩ := ih (c.receive s).2 (by omega)
      exact ⟨_, s', (encoderThread_run_ok hy).trans hr, by simpa using h1,
        by simpa [submitsAndStamps] using h2, by simp [h3], h4,
        h5.trans (hc.receive_flushed s)⟩
    · exact ⟨[], s, .refl _, rfl, rfl, rfl, .inl hy, Iff.rfl⟩
    · exact ⟨[], s, .refl _, rfl, rfl, rfl, .inr hy, Iff.rfl⟩

/-- An unflushed encoder that has submitted `n` frames, fed `f₁ … fₖ, null`, meets the
contract with its frames and stamps numbered from `n`. -/
theorem encoderThread_feed (hc : c.Obeys flushed) (hf : c.Finite pending)
    (wc : ℕ → WindowContext) (clock : ℕ → Int) (fs : List AVFrame) :
    ∀ s n, ¬ flushed s → ∃ tr, Runs (encoderThread c wc clock) (.receive s n) tr .done ∧
      Event.takes tr = fs.map some ++ [none] ∧
      submitsAndStamps tr = (fs.mapIdx fun i f =>
        [.inl (some (withDescriptor f (foveationDescriptor (wc (n + i))))),
          .inr (some (clock (n + i)))]).flatten ∧
      EncoderOut.packets (Event.puts tr) = (received tr).map some ++ [none] := by
  induction fs with
  | nil => ?_
  | cons f fs ih => ?_
  all_goals
    intro s n hs
    obtain ⟨tr, s', hr, h1, h2, h3, h4 | h4, h5⟩ := encoderThread_outputs hc hf wc clock s n
    swap
    · exact absurd (hc.eof s' h4) (h5.not.mpr hs)
    obtain ⟨hacc, hs'⟩ := hc.eagain s' h4
  · refine ⟨_, hr.trans (encoderThread_run_null h4), by simp [h1], ?_, by simp [h3]⟩
    simp only [submitsAndStamps_append, h2, List.mapIdx_nil, List.flatten_nil]
    rfl
  · have hs'' := (hc.send_some _ (withDescriptor f (foveationDescriptor (wc n))) (hacc _)).not.mpr
      ((hc.receive_flushed s').not.mpr hs')
    obtain ⟨tr', hr', h1', h2', h3'⟩ := ih _ (n + 1) hs''
    refine ⟨_, hr.trans ((encoderThread_run_frame h4 hacc f).trans hr'), by simp [h1, h1'],
      ?_, by simp [h3, h3']⟩
    simp only [submitsAndStamps_append, h2, h2', List.mapIdx_cons, List.flatten_cons]
    simp [submitsAndStamps, Nat.add_right_comm, Nat.add_assoc]

/-- The encoder stage contract. On a frame queue holding `f₁ … fₙ`, the null, then anything,
`encoder_thread` has a run to its return that meets `EncodesFrames`, and every run on that
input is a prefix of it. -/
theorem encoderThread_encodes (hc : c.Obeys flushed) (hf : c.Finite pending) {s₀ : σ}
    (h₀ : ¬ flushed s₀) (wc : ℕ → WindowContext) (clock : ℕ → Int) (fs : List AVFrame)
    (rest : List (Option AVFrame)) :
    ∃ tr, Runs (encoderThread c wc clock) (.receive s₀ 0) tr .done ∧
      EncodesFrames wc clock fs tr ∧
      ∀ tr' l, Runs (encoderThread c wc clock) (.receive s₀ 0) tr' l →
        Event.takes tr' <+: fs.map some ++ [none] ++ rest → tr' <+: tr := by
  obtain ⟨tr, hr, h1, h2, h3⟩ := encoderThread_feed hc hf wc clock fs s₀ 0 h₀
  exact ⟨tr, hr, ⟨h1, by simpa [withDescriptor, descrSize] using h2, h3⟩,
    fun tr' l h ht => hr.prefix_of_halt rfl h (h1 ▸ ht)⟩

/-- A zero-latency encoder that turns each frame into an empty packet. -/
def packetize : Codec (DelayState AVFrame) AVFrame AVPacket :=
  Codec.delay 0 fun _ => ⟨some [], 0⟩

theorem encoderThread_encodes_packetize :
    ¬ (⟨[], false⟩ : DelayState AVFrame).flushed = true ∧
    ∃ tr, Runs (encoderThread packetize (fun _ => ⟨320, 240, 640, 480⟩) (fun n => n))
        (.receive ⟨[], false⟩ 0) tr .done ∧
      EncodesFrames (fun _ => ⟨320, 240, 640, 480⟩) (fun n => n) [⟨[], 0, []⟩] tr ∧
      ∀ tr' l, Runs (encoderThread packetize (fun _ => ⟨320, 240, 640, 480⟩) (fun n => n))
          (.receive ⟨[], false⟩ 0) tr' l →
        Event.takes tr' <+: [some ⟨[], 0, []⟩, none] ++ [] → tr' <+: tr :=
  ⟨by decide, encoderThread_encodes (Codec.delay_obeys 0 _) (Codec.delay_finite 0 _) (by decide)
    _ _ [⟨[], 0, []⟩] []⟩

end Contract

/-! ## Answers the loop does not name -/

section Idle

variable {σ : Type} {c : Codec σ AVFrame AVPacket} {wc : ℕ → WindowContext} {clock : ℕ → Int}

/-- An answer of `avcodec_receive_packet` that the `if` chain does not name makes an iteration
that appends nothing, extracts nothing, and neither leaves the loop nor exits. -/
theorem encoderThread_idle {s : σ} {n : ℕ} {e : AVRet} (he : (c.receive s).1 = .error e)
    (h₁ : e ≠ .eagain) (h₂ : e ≠ .eof) (h₃ : e ≠ .einval) :
    encoderThread c wc clock (.receive s n) =
      .call (.receive (.error e)) (.receive (c.receive s).2 n) := by
  cases e <;> simp_all [encoderThread, EncoderPc.afterReceive]

/-- The receive loops of `decoder_thread`, in `codec.c` and in `main.c`, and of
`encoder_thread` do not handle `AVERROR(ENOMEM)`: on a codec state whose receive call answers
it and stays put, each loop goes round forever, never appending, extracting, leaving or
exiting. -/
theorem receiveLoops_spin {σ' α β : Type} {d : Codec σ' α β} {s' : σ'} {s : σ}
    (hd : d.receive s' = (.error .enomem, s')) (he : c.receive s = (.error .enomem, s))
    (avctx : σ') (n : ℕ) :
    Spins (decoderThread d) (.receive s') (.receive (.error .enomem)) ∧
    Spins (mainDecoderThread d avctx) (some (.receive s')) (.receive (.error .enomem)) ∧
    Spins (encoderThread c wc clock) (.receive s n) (.receive (.error .enomem)) := by
  have hdec : decoderThread d (.receive s') = .call (.receive (.error .enomem)) (.receive s') := by
    simpa [hd] using decoderThread_idle (c := d) (s := s') (by simp [hd]) (by simp) (by simp)
      (by simp)
  refine ⟨Runs.of_loop hdec, Runs.of_loop (by simp [mainDecoderThread, hdec, Act.map]),
    Runs.of_loop ?_⟩
  have h : encoderThread c wc clock (.receive s n) = _ :=
    encoderThread_idle (e := .enomem) (by simp [he]) (by decide) (by decide) (by decide)
  simpa [he] using h

/-- The three receive loops at a codec whose receive call always answers `AVERROR(ENOMEM)`:
each spins forever, whatever its input queue holds. -/
theorem receiveLoops_spin_noMemory :
    Spins (decoderThread (Codec.noMemory AVPacket AVFrame)) (.receive ())
      (.receive (.error .enomem)) ∧
    Spins (mainDecoderThread (Codec.noMemory AVPacket AVFrame) ()) (some (.receive ()))
      (.receive (.error .enomem)) ∧
    Spins (encoderThread (Codec.noMemory AVFrame AVPacket) (fun _ => ⟨0, 0, 640, 480⟩) (fun n => n))
      (.receive () 0) (.receive (.error .enomem)) :=
  receiveLoops_spin rfl rfl () 0

end Idle

end FFoveated
