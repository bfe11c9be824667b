import FFoveated.Lag

/-!
# Codecs of fixed latency

`set_codec_options` asks each encoder for zero latency, since a frame the encoder holds when
`encoder_thread` takes the null is never returned: the thread leaves its loop without draining
its codec. With codecs that turn each input into one output and hold up to a fixed number of
inputs (`Codec.delay`), what reaches the display can be computed. Both decoders are drained, so
each returns one frame per packet it takes. The encoder is not: with latency `d`, the last
`min d k` of the `k` frames it submits are lost, while each of them has its timestamp on
`lag_queue`.

## Main definitions

- `DecoderPc.Converts` — a decoder's appends, then what its codec holds, are the conversion of
  what it took.
- `EncoderPc.Delayed` — the same for the encoder and its annotated frames, with its stamps and
  how many frames its codec holds.
- `Config.Latency` — every codec is a `Codec.delay` and every context starts empty.

## Main results

- `decoderThread_converts`, `encoderThread_delayed` — the two invariants are kept by every
  step.
- `Pipeline.Done.frames` — what a finished pipeline has put on `lag_queue` and `out_frm_q`.
- `Pipeline.displayed_frames` — every interleaving ends with one timestamp for each kept packet
  and the last `min d k` frames missing at the display.
-/

namespace FFoveated

section Decoder

variable {α β : Type} {d : ℕ} {conv : α → β}

/-- With the codec `Codec.delay d conv`, what the decoder has appended, then what its codec
holds, is the conversion of the packets it has taken. -/
def DecoderPc.Converts (conv : α → β) :
    DecoderPc (DelayState α) α β → List (Option α) → List (Option β) → Prop
  | .receive s, ins, outs | .extract s, ins, outs =>
    outs.filterMap id ++ s.held.map conv = (ins.filterMap id).map conv
  | .append s y, ins, outs =>
    outs.filterMap id ++ y :: s.held.map conv = (ins.filterMap id).map conv
  | .supply s p, ins, outs =>
    outs.filterMap id ++ (s.held ++ p.toList).map conv = (ins.filterMap id).map conv
  | .flush, ins, outs | .done, ins, outs => outs.filterMap id = (ins.filterMap id).map conv
  | .exit _, _, _ => True

theorem decoderThread_converts :
    Preserves (decoderThread (Codec.delay d conv)) (DecoderPc.Converts conv) where
  call {l l' _ ins outs} h hi := by
    cases l with
    | receive s =>
      simp only [decoderThread, Act.call.injEq] at h
      obtain ⟨-, rfl⟩ := h
      rcases Codec.delay_receive_cases d conv s with ⟨x, rest, hs, -, hr⟩ | ⟨-, -, hr⟩ |
        ⟨hs, -, hr⟩ <;> simp only [hr, DecoderPc.afterReceive, DecoderPc.Converts]
      · simpa [hs, DecoderPc.Converts] using hi
      · exact hi
      · simpa [hs, DecoderPc.Converts] using hi
    | supply s p =>
      simp only [decoderThread, Act.call.injEq] at h
      obtain ⟨-, rfl⟩ := h
      cases p <;> simpa [Codec.delay, DecoderPc.afterSupply, supplyPacket, supplyCheck,
        DecoderPc.Converts] using hi
    | append | extract | flush | done | exit => simp [decoderThread] at h
  put {l l' _ ins outs} h hi := by
    cases l with
    | append s y | flush =>
      simp only [decoderThread, Act.put.injEq] at h
      obtain ⟨rfl, rfl⟩ := h
      simpa [DecoderPc.Converts] using hi
    | receive | extract | supply | done | exit => simp [decoderThread] at h
  take {l _ i ins outs} h hi := by
    cases l with
    | extract s =>
      simp only [decoderThread, Act.take.injEq] at h
      subst h
      cases i <;> simpa [DecoderPc.Converts, ← List.append_assoc] using hi
    | receive | append | supply | flush | done | exit => simp [decoderThread] at h

end Decoder

section Encoder

variable {d : ℕ} {conv : AVFrame → AVPacket} {wc : ℕ → WindowContext} {clock : ℕ → Int}

/-- What the encoder has appended to `packet_queue`, then `pending`, is the conversion by `conv`
of the frames it has taken, each with the descriptor of the window state at its index. -/
def EncoderOut.Encoded (conv : AVFrame → AVPacket) (wc : ℕ → WindowContext)
    (ins : List (Option AVFrame)) (outs : List EncoderOut) (pending : List AVPacket) : Prop :=
  (EncoderOut.packets outs).filterMap id ++ pending =
    ((ins.filterMap id).mapIdx fun i f => withDescriptor f (foveationDescriptor (wc i))).map conv

theorem EncoderOut.Encoded.length {ins : List (Option AVFrame)} {outs : List EncoderOut}
    {pending : List AVPacket} (h : EncoderOut.Encoded conv wc ins outs pending) :
    ((EncoderOut.packets outs).filterMap id).length + pending.length =
      (ins.filterMap id).length := by
  simpa using congrArg List.length h

/-- The encoder with the codec `Codec.delay d conv`. After `n` submissions it has taken `n`
frames (`n + 1` with the one in hand); what it has appended, then what its codec holds, is the
conversion of what it submitted; the codec is never flushed and holds at least `min d n`
frames, exactly `min d n` when the encoder asks for input. So after the null the codec keeps
the last `min d n` frames, and they are never appended. -/
def EncoderPc.Delayed (d : ℕ) (conv : AVFrame → AVPacket) (wc : ℕ → WindowContext) :
    EncoderPc (DelayState AVFrame) → List (Option AVFrame) → List EncoderOut → Prop
  | .receive s n, ins, outs =>
    (ins.filterMap id).length = n ∧ EncoderOut.Encoded conv wc ins outs (s.held.map conv) ∧
      min d n ≤ s.held.length ∧
      s.flushed = false
  | .append s n y, ins, outs =>
    (ins.filterMap id).length = n ∧
      EncoderOut.Encoded conv wc ins outs (y :: s.held.map conv) ∧ min d n ≤ s.held.length ∧
      s.flushed = false
  | .extract s n, ins, outs =>
    (ins.filterMap id).length = n ∧
      EncoderOut.Encoded conv wc ins outs (s.held.map conv) ∧ s.held.length = min d n ∧
      s.flushed = false
  | .supply s n f, ins, outs =>
    (ins.filterMap id).length = n + 1 ∧
      EncoderOut.Encoded conv wc ins outs
        ((s.held ++ [withDescriptor f (foveationDescriptor (wc n))]).map conv) ∧
      s.held.length = min d n ∧ s.flushed = false
  | .stamp s n, ins, outs =>
    (ins.filterMap id).length = n + 1 ∧
      EncoderOut.Encoded conv wc ins outs (s.held.map conv) ∧
      min d (n + 1) ≤ s.held.length ∧ s.flushed = false
  | .flush, ins, outs | .done, ins, outs =>
    (EncoderOut.packets outs).filterMap id =
      (((ins.filterMap id).mapIdx fun i f => withDescriptor f (foveationDescriptor (wc i))).map
        conv).take ((ins.filterMap id).length - min d (ins.filterMap id).length)
  | .exit _, _, _ => True

theorem encoderThread_delayed :
    Preserves (encoderThread (Codec.delay d conv) wc clock) (EncoderPc.Delayed d conv wc) where
  call {l l' _ ins outs} h hi := by
    cases l with
    | receive s n =>
      simp only [encoderThread, Act.call.injEq] at h
      obtain ⟨-, rfl⟩ := h
      obtain ⟨hf, he, hmin, hfl⟩ := hi
      have hlen := he.length
      rcases Codec.delay_receive_cases d conv s with ⟨x, rest, hs, hd, hr⟩ | ⟨-, hle, hr⟩ |
        ⟨-, hfl', hr⟩ <;> simp only [hr, EncoderPc.afterReceive, EncoderPc.Delayed]
      · -- the codec returns its oldest frame only when it holds more than `d`
        simp only [hs, hfl, List.length_cons, List.map_cons, Bool.false_eq_true, or_false]
          at he hmin hd
        exact ⟨hf, he, by omega, hfl⟩
      · simp only [List.length_map] at hlen
        exact ⟨hf, he, by omega, hfl⟩
      · simp [hfl] at hfl'
    | supply s n f =>
      simp only [encoderThread, Act.call.injEq] at h
      obtain ⟨-, rfl⟩ := h
      obtain ⟨hf, he, hh, hfl⟩ := hi
      simp only [Codec.delay, EncoderPc.afterSupply, supplyFrame, supplyCheck, EncoderPc.Delayed,
        List.length_append, List.length_singleton]
      exact ⟨hf, he, by omega, hfl⟩
    | append | extract | stamp | flush | done | exit => simp [encoderThread] at h
  put {l l' _ ins outs} h hi := by
    cases l with
    | append s n y =>
      simp only [encoderThread, Act.put.injEq] at h
      obtain ⟨rfl, rfl⟩ := h
      obtain ⟨hf, he, hmin, hfl⟩ := hi
      exact ⟨hf, by simpa [EncoderOut.Encoded] using he, hmin, hfl⟩
    | stamp s n =>
      simp only [encoderThread, Act.put.injEq] at h
      obtain ⟨rfl, rfl⟩ := h
      obtain ⟨hf, he, hmin, hfl⟩ := hi
      exact ⟨hf, by simpa [EncoderOut.Encoded] using he, hmin, hfl⟩
    | flush =>
      simp only [encoderThread, Act.put.injEq] at h
      obtain ⟨rfl, rfl⟩ := h
      simpa [EncoderPc.Delayed] using hi
    | receive | extract | supply | done | exit => simp [encoderThread] at h
  take {l _ i ins outs} h hi := by
    cases l with
    | extract s n =>
      simp only [encoderThread, Act.take.injEq] at h
      subst h
      obtain ⟨hf, he, hh, hfl⟩ := hi
      have hlen := he.length
      rw [EncoderOut.Encoded] at he
      simp only [List.length_map] at hlen
      cases i with
      | none =>
        -- the null breaks out of the loop: what the codec holds stays there
        have hins : (ins ++ [none]).filterMap id = ins.filterMap id := by simp
        simp only [EncoderPc.afterExtract, EncoderPc.Delayed, hins, hf, ← he]
        exact (List.take_left' (by omega)).symm
      | some f =>
        have hins : (ins ++ [some f]).filterMap id = ins.filterMap id ++ [f] := by simp
        refine ⟨by simp [hins, hf], ?_, hh, hfl⟩
        rw [EncoderOut.Encoded, hins, List.mapIdx_concat]
        simp only [List.map_append, ← he, hf, List.append_assoc]
    | receive | append | supply | stamp | flush | done | exit => simp [encoderThread] at h

end Encoder

section Pipeline

variable {pktCap frmCap d₁ d d₃ : ℕ} {conv₁ : AVPacket → AVFrame} {conv₂ : AVFrame → AVPacket}
  {conv₃ : AVPacket → AVFrame}
  {cfg : Config (DelayState AVPacket) (DelayState AVFrame) (DelayState AVPacket)}

/-- The codecs are `Codec.delay d₁ conv₁`, `Codec.delay d conv₂` and `Codec.delay d₃ conv₃`,
and every context starts empty. -/
structure Config.Latency (cfg : Config (DelayState AVPacket) (DelayState AVFrame)
    (DelayState AVPacket)) (d₁ : ℕ) (conv₁ : AVPacket → AVFrame) (d : ℕ)
    (conv₂ : AVFrame → AVPacket) (d₃ : ℕ) (conv₃ : AVPacket → AVFrame) : Prop where
  source : cfg.source = Codec.delay d₁ conv₁
  encoder : cfg.encoder = Codec.delay d conv₂
  fov : cfg.fov = Codec.delay d₃ conv₃
  sourceCtx : cfg.sourceCtx = ⟨[], false⟩
  encoderCtx : cfg.encoderCtx = ⟨[], false⟩
  fovCtx : cfg.fovCtx = ⟨[], false⟩

theorem Config.Latency.obeys (hl : cfg.Latency d₁ conv₁ d conv₂ d₃ conv₃) :
    cfg.Obeys (fun s => s.flushed = true) (fun s => s.flushed = true)
      (fun s => s.flushed = true) :=
  ⟨hl.source ▸ Codec.delay_obeys d₁ conv₁, hl.encoder ▸ Codec.delay_obeys d conv₂,
    hl.fov ▸ Codec.delay_obeys d₃ conv₃, by simp [hl.sourceCtx], by simp [hl.encoderCtx],
    by simp [hl.fovCtx]⟩

theorem Config.Latency.finite (hl : cfg.Latency d₁ conv₁ d conv₂ d₃ conv₃) :
    cfg.Finite (fun s => s.held.length) (fun s => s.held.length) (fun s => s.held.length) :=
  ⟨hl.source ▸ Codec.delay_finite d₁ conv₁, hl.encoder ▸ Codec.delay_finite d conv₂,
    hl.fov ▸ Codec.delay_finite d₃ conv₃⟩

namespace Pipeline

/-- What a finished pipeline has put on `lag_queue` and `out_frm_q`: for the `k` packets the
reader kept, the timestamps `clock 0 … clock (k - 1)`, and the first `k - min d k` of them
decoded, annotated, encoded and decoded again. -/
theorem Done.frames {pkts : List AVPacket} {s : Pipeline _ _ _ pktCap frmCap}
    (hl : cfg.Latency d₁ conv₁ d conv₂ d₃ conv₃)
    (hfile : cfg.file = pkts.map .ok ++ [.error .eof]) (hi : s.Inv cfg) (hd : s.Done) :
    s.lagQ.sent = (List.range (pkts.filter (keeps cfg.streamIndex)).length).map
      (some ∘ cfg.clock) ∧
    s.outFrmQ.sent.filterMap id =
      (((((pkts.filter (keeps cfg.streamIndex)).map conv₁).mapIdx fun i f =>
        { f with
          sideData := f.sideData ++
            [{ type := .foveationDescriptor, size := 16, data := foveationDescriptor (cfg.wc i) }]
          pictType := 0 }).map conv₂).take
          ((pkts.filter (keeps cfg.streamIndex)).length -
            min d (pkts.filter (keeps cfg.streamIndex)).length)).map conv₃ := by
  have hlag := hi.lagQ_sent hd.encoder
  obtain ⟨hr, hsrc, henc, hfov⟩ := hi
  rw [hfile, hd.reader] at hr
  rw [hl.source, hl.sourceCtx, hd.source] at hsrc
  rw [hl.encoder, hl.encoderCtx, hd.encoder] at henc
  rw [hl.fov, hl.fovCtx, hd.fov] at hfov
  obtain ⟨_, rfl, hc₁⟩ := hsrc.inv decoderThread_converts (by exact rfl)
  obtain ⟨outs, ⟨hp, -⟩, hc₂⟩ :=
    henc.inv encoderThread_delayed (by exact ⟨rfl, by simp [EncoderOut.Encoded], by simp, rfl⟩)
  obtain ⟨_, rfl, hc₃⟩ := hfov.inv decoderThread_converts (by exact rfl)
  dsimp only at hp
  simp only [DecoderPc.Converts] at hc₁ hc₃
  -- every queue is drained, so each consumer has taken all that was appended to it
  obtain ⟨hd₁, hd₂, hd₃, -, -⟩ := hd.drained
  have hfs : s.frmQ.taken.filterMap id = (pkts.filter (keeps cfg.streamIndex)).map conv₁ := by
    rw [Queue.taken_eq_sent hd₂, hc₁, Queue.taken_eq_sent hd₁, readerThread_history_done hr]
    simp
  refine ⟨by rw [hlag, hfs, List.length_map], ?_⟩
  rw [hc₃, Queue.taken_eq_sent hd₃, hp, hc₂, hfs, List.length_map]
  rfl

/-- Frames lost at the display. With codecs of fixed latency whose contexts start empty, room
in `pkt_q` and `frm_q`, and packets ending in `AVERROR_EOF`, every interleaving ends with the
pipeline finished; for the `k` packets the reader kept, `lag_queue` has received
`clock 0 … clock (k - 1)`, and `out_frm_q` only the first `k - min d k` of them decoded,
given `pict_type` 0 and a side data entry tagged `AV_FRAME_DATA_FOVEATION_DESCRIPTOR` of size
16 holding the descriptor of their index, encoded and decoded again, where `d` is the
encoder's latency. -/
theorem displayed_frames {pkts : List AVPacket} (hl : cfg.Latency d₁ conv₁ d conv₂ d₃ conv₃)
    (hfile : cfg.file = pkts.map .ok ++ [.error .eof]) (hpk : 0 < pktCap) (hfr : 0 < frmCap) :
    Inevitably (Pipeline.next cfg) (fun s => s.Done ∧
      s.lagQ.sent = (List.range (pkts.filter (keeps cfg.streamIndex)).length).map
        (some ∘ cfg.clock) ∧
      s.outFrmQ.sent.filterMap id =
        (((((pkts.filter (keeps cfg.streamIndex)).map conv₁).mapIdx fun i f =>
          { f with
            sideData := f.sideData ++
              [{ type := .foveationDescriptor, size := 16, data := foveationDescriptor (cfg.wc i) }]
            pictType := 0 }).map conv₂).take
            ((pkts.filter (keeps cfg.streamIndex)).length -
              min d (pkts.filter (keeps cfg.streamIndex)).length)).map conv₃)
      (init cfg : Pipeline _ _ _ pktCap frmCap) :=
  (inevitably_done hl.obeys hfile hl.finite hpk hfr).mono_reachable fun _ h hd =>
    ⟨hd, hd.frames hl hfile (Inv.of_reachable h)⟩

end Pipeline

theorem displayed_frames_holdOne :
    (onePacket holdOne).Latency 0 (fun _ => ⟨[], 0, []⟩) 1 (fun _ => ⟨some [], 0⟩) 0
      (fun _ => ⟨[], 0, []⟩) ∧
    (onePacket holdOne).file = [⟨some [0], 0⟩].map .ok ++ [.error .eof] ∧
    Inevitably (Pipeline.next (onePacket holdOne))
      (fun s => s.Done ∧ s.lagQ.sent = [some 0] ∧ s.outFrmQ.sent.filterMap id = [])
      (Pipeline.init (onePacket holdOne) : Pipeline _ _ _ 32 32) :=
  have hl : (onePacket holdOne).Latency 0 (fun _ => ⟨[], 0, []⟩) 1 (fun _ => ⟨some [], 0⟩) 0
      (fun _ => ⟨[], 0, []⟩) := ⟨rfl, rfl, rfl, rfl, rfl, rfl⟩
  have hf : (onePacket holdOne).file = [⟨some [0], 0⟩].map .ok ++ [.error .eof] := rfl
  ⟨hl, hf, Pipeline.displayed_frames hl hf (by decide) (by decide)⟩

end Pipeline

end FFoveated
