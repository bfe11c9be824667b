import FFoveated.Progress

/-!
# A read error ends the process

`reader_thread` calls `pexit("av_read_frame failed")` on any error of `av_read_frame` other
than `AVERROR_EOF`, and `pexit` ends the whole process. The codec threads never call it under
the facade contract, so on such a container the reader's `pexit` is where every interleaving
ends: the threads downstream stop wherever they are, and `pkt_q` never receives its null.

## Main results

- `Pipeline.Inv.progress_error` — with a read error, a state where no worker can step has a
  thread stopped by `pexit`.
- `Pipeline.Inv.exited_error` — that thread is the reader, stopped on the error.
- `Pipeline.read_error_exits` — every interleaving ends with the reader stopped by `pexit`,
  `pkt_q` holding the kept packets before the error and no null.
-/

namespace FFoveated

namespace Pipeline

variable {σ₁ σ₂ σ₃ : Type} {pktCap frmCap : ℕ} {cfg : Config σ₁ σ₂ σ₃}
  {s : Pipeline σ₁ σ₂ σ₃ pktCap frmCap} {fl₁ : σ₁ → Prop} {fl₂ : σ₂ → Prop} {fl₃ : σ₃ → Prop}
  {p₁ : σ₁ → ℕ} {p₂ : σ₂ → ℕ} {p₃ : σ₃ → ℕ} {pkts : List AVPacket} {e : AVRet}
  {after : List (Except AVRet AVPacket)}

/-- With a read error, a state where no worker can step has a thread stopped by `pexit`: were
none stopped, the state would be finished, and the reader never returns on that container. -/
theorem Inv.progress_error (hc : cfg.Obeys fl₁ fl₂ fl₃)
    (hfile : cfg.file = pkts.map .ok ++ .error e :: after) (he : e ≠ .eof) (hpk : 0 < pktCap)
    (hfr : 0 < frmCap) (hi : s.Inv cfg) : s.exited = true ∨ ∃ w s', s.next cfg w = some s' := by
  by_cases hm : ∃ w s', s.next cfg w = some s'
  · exact .inr hm
  cases hx : s.exited
  · exact absurd (hi.done_of_stuck hc hpk hfr hx (stuck_of_not_step hm)).reader
      (readerThread_history_error he (hfile ▸ hi.reader)).1
  · exact .inl rfl

/-- The codec threads never call `pexit`, so a stopped process has its reader stopped on the
read error, after appending the packets it keeps and no null. -/
theorem Inv.exited_error (hc : cfg.Obeys fl₁ fl₂ fl₃)
    (hfile : cfg.file = pkts.map .ok ++ .error e :: after) (he : e ≠ .eof) (hi : s.Inv cfg)
    (hx : s.exited = true) :
    s.reader = .exit "av_read_frame failed" ∧
      s.pktQ.sent = (pkts.filter (keeps cfg.streamIndex)).map some := by
  have hl := hi.local hc
  obtain ⟨outs, -, hen⟩ := hl.encoder
  refine (readerThread_history_error he (hfile ▸ hi.reader)).2 ?_
  simpa [Pipeline.exited, hl.source.isExit, hen.isExit, hl.fov.isExit] using hx

/-- A read error ends the process. On packets, then an error of `av_read_frame` other than
`AVERROR_EOF`, then anything, with codecs that obey the facade and return finitely many outputs
per input, and room in `pkt_q` and `frm_q`, every interleaving ends with the reader stopped by
`pexit("av_read_frame failed")` after appending exactly the packets it keeps and no null, and
no worker can step any more. -/
theorem read_error_exits (hc : cfg.Obeys fl₁ fl₂ fl₃) (hf : cfg.Finite p₁ p₂ p₃)
    (hfile : cfg.file = pkts.map .ok ++ .error e :: after) (he : e ≠ .eof) (hpk : 0 < pktCap)
    (hfr : 0 < frmCap) :
    Inevitably (Pipeline.next cfg) (fun s => s.reader = .exit "av_read_frame failed" ∧
        s.pktQ.sent = (pkts.filter (keeps cfg.streamIndex)).map some ∧ ∀ w, s.next cfg w = none)
      (init cfg : Pipeline σ₁ σ₂ σ₃ pktCap frmCap) :=
  (inevitably_of_rank rankLt_wf (rank p₁ p₂ p₃) (fun s _ _ (hi : s.Inv cfg) h => hi.next h)
    (fun _ _ _ _ h => rank_next hc hf h) (fun _ hi => hi.progress_error hc hfile he hpk hfr)
    inv_init).mono_reachable fun _ h hx =>
      have ⟨hr, hq⟩ := (Inv.of_reachable h).exited_error hc hfile he hx
      ⟨hr, hq, fun _ => by simp [Pipeline.next, hx]⟩

end Pipeline

/-- One video packet, then a read error, through zero-latency codecs. -/
def onePacketError : Config (DelayState AVPacket) (DelayState AVFrame) (DelayState AVPacket) :=
  { onePacket packetize with file := [.ok ⟨some [0], 0⟩, .error .einval] }

theorem read_error_exits_onePacket :
    onePacketError.Obeys (fun s => s.flushed = true) (fun s => s.flushed = true)
      (fun s => s.flushed = true) ∧
    onePacketError.file = [⟨some [0], 0⟩].map .ok ++ .error .einval :: [] ∧
    Inevitably (Pipeline.next onePacketError)
      (fun s => s.reader = .exit "av_read_frame failed" ∧ s.pktQ.sent = [some ⟨some [0], 0⟩] ∧
        ∀ w, s.next onePacketError w = none)
      (Pipeline.init onePacketError : Pipeline _ _ _ 32 32) :=
  have hc : onePacketError.Obeys (fun s => s.flushed = true) (fun s => s.flushed = true)
      (fun s => s.flushed = true) :=
    ⟨Codec.delay_obeys 0 _, Codec.delay_obeys 0 _, Codec.delay_obeys 0 _, Bool.false_ne_true,
      Bool.false_ne_true, Bool.false_ne_true⟩
  have hfile : onePacketError.file = [⟨some [0], 0⟩].map .ok ++ .error .einval :: [] := rfl
  ⟨hc, hfile, Pipeline.read_error_exits hc
    ⟨Codec.delay_finite 0 _, Codec.delay_finite 0 _, Codec.delay_finite 0 _⟩ hfile (by decide)
    (by decide) (by decide)⟩

end FFoveated
