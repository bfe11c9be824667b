import FFoveated.Progress

/-!
# The lag side channel

`encoder_thread` appends one timestamp to `lag_queue` for each frame it submits, and on the
null frame it breaks out of its loop without submitting the null. So `lag_queue` never
receives a null, and the encoder's codec is never drained: a codec that holds frames until it
is drained never returns the packets of the frames it holds, and the display then has fewer
frames than timestamps.

## Main results

- `lag_unpaired` — with an encoder that holds one frame, one packet ends with one timestamp and
  no frame at the display, and nothing can step any more.
-/

namespace FFoveated

/-- An encoder that holds one frame, and returns it only when it gets another or is drained. -/
def holdOne : Codec (DelayState AVFrame) AVFrame AVPacket := Codec.delay 1 fun _ => ⟨some [], 0⟩

/-- Each thread in pipeline order as far as it goes, then the display. -/
def lagSchedule : List Worker :=
  List.replicate 5 .reader ++ List.replicate 10 .source ++ List.replicate 7 .encoder ++
    List.replicate 5 .fov ++ [.frameSink, .lagSink]

/-- The frames the display gets and the timestamps it gets do not pair up: with an encoder
that holds one frame, one video packet ends with one timestamp on `lag_queue`, no null after
it, and only the null on `out_frm_q`; no worker can step any more. -/
theorem lag_unpaired :
    ∃ s : Pipeline (DelayState AVPacket) (DelayState AVFrame) (DelayState AVPacket) 32 32,
      Reachable (Pipeline.next (onePacket holdOne)) (Pipeline.init (onePacket holdOne)) s ∧
      (∀ w, s.next (onePacket holdOne) w = none) ∧
      s.lagQ.sent.map Option.isSome = [true] ∧ s.outFrmQ.sent.map Option.isSome = [false] := by
  have hs : (schedule (Pipeline.next (onePacket holdOne))
      (Pipeline.init (onePacket holdOne) : Pipeline _ _ _ 32 32) lagSchedule).any (fun s =>
    (s.next (onePacket holdOne) .reader).isNone && (s.next (onePacket holdOne) .source).isNone &&
    (s.next (onePacket holdOne) .encoder).isNone && (s.next (onePacket holdOne) .fov).isNone &&
    (s.next (onePacket holdOne) .frameSink).isNone &&
    (s.next (onePacket holdOne) .lagSink).isNone &&
    (s.lagQ.sent.map Option.isSome == [true]) && (s.outFrmQ.sent.map Option.isSome == [false]))
      = true := by decide
  obtain ⟨s, hr, hp⟩ := Reachable.exists_of_schedule lagSchedule hs
  simp only [Bool.and_eq_true, Option.isNone_iff_eq_none, beq_iff_eq] at hp
  obtain ⟨⟨⟨⟨⟨⟨⟨h1, h2⟩, h3⟩, h4⟩, h5⟩, h6⟩, h7⟩, h8⟩ := hp
  exact ⟨s, hr, fun w => by cases w <;> assumption, h7, h8⟩

end FFoveated
