import FFoveated.Progress

/-!
# The pipeline composes its stages

Each codec thread of `codec.c` meets a contract of its own: `decoder_thread` decodes with drain
what it extracts (`DecodesWithDrain`), and `encoder_thread` annotates and encodes what it
extracts and stamps each frame (`EncodesFrames`). Joined at their queues, the contracts say what
the running pipeline ends with, for any codecs that obey the facade, whatever the interleaving:
the source decoder decodes with drain the packets the reader kept; the encoder annotates,
encodes and stamps the frames the source codec returned; the foveation decoder decodes with
drain the packets the encoder's codec returned; and each queue ends holding the outputs of its
producer's run, then the null.

## Main definitions

- `Pipeline.Composes` — the queues hold the composition of the three stage runs.

## Main results

- `lags_puts` — the timestamps of an encoder run are the stamps among its submissions and stamps.
- `Pipeline.Done.composes` — a finished state of the invariant holds the composition.
- `Pipeline.stages_compose` — every interleaving ends with the pipeline finished and its queues
  holding the composition.
-/

namespace FFoveated

/-- The timestamps an encoder run appends are the stamps among its submissions and stamps. -/
theorem lags_puts (tr : List (Event (Option AVFrame) EncoderOut (CodecCall AVFrame AVPacket))) :
    EncoderOut.lags (Event.puts tr) = (submitsAndStamps tr).filterMap Sum.getRight? := by
  induction tr with
  | nil => rfl
  | cons e tr ih =>
    simp only [submitsAndStamps] at ih ⊢
    rcases e with (_ | ⟨x, r⟩ | r) | (p | t) | i <;> simp [ih]

/-- The stamps among submissions and stamps that alternate, as `EncodesFrames` asks, are the
clock at each frame's index. -/
theorem stamps_mapIdx (g : ℕ → AVFrame → AVFrame) (clock : ℕ → Int) (fs : List AVFrame) :
    ((fs.mapIdx fun i f => [Sum.inl (some (g i f)), Sum.inr (some (clock i))]).flatten).filterMap
      Sum.getRight? = (List.range fs.length).map (some ∘ clock) := by
  induction fs generalizing g clock with
  | nil => rfl
  | cons f fs ih =>
    simp only [List.mapIdx_cons, List.flatten_cons, List.filterMap_append,
      ih (fun i => g (i + 1)) (fun i => clock (i + 1)), List.length_cons, List.range_succ_eq_map,
      List.map_cons, List.map_map]
    rfl

namespace Pipeline

variable {σ₁ σ₂ σ₃ : Type} {pktCap frmCap : ℕ} {cfg : Config σ₁ σ₂ σ₃}
  {s : Pipeline σ₁ σ₂ σ₃ pktCap frmCap} {fl₁ : σ₁ → Prop} {fl₂ : σ₂ → Prop} {fl₃ : σ₃ → Prop}
  {p₁ : σ₁ → ℕ} {p₂ : σ₂ → ℕ} {p₃ : σ₃ → ℕ}

/-- The queues of `s` hold the composition of the three stages on the container's packets
`pkts`: `pkt_q` the packets the reader keeps and the null; `frm_q` the outputs and the null of a
run of the source decoder that decodes those packets with drain; `enc_pkt_q` the packets and the
null of a run of the encoder that annotates, encodes and stamps those outputs, and `lag_queue`
its timestamps `clock 0 … clock (k - 1)`; `out_frm_q` the outputs and the null of a run of the
foveation decoder that decodes those packets with drain. -/
def Composes (cfg : Config σ₁ σ₂ σ₃) (pkts : List AVPacket)
    (s : Pipeline σ₁ σ₂ σ₃ pktCap frmCap) : Prop :=
  s.pktQ.sent = (pkts.filter (keeps cfg.streamIndex)).map some ++ [none] ∧
  ∃ tr₁ tr₂ tr₃,
    Runs (decoderThread cfg.source) (.receive cfg.sourceCtx) tr₁ .done ∧
    DecodesWithDrain (pkts.filter (keeps cfg.streamIndex)) tr₁ ∧
    s.frmQ.sent = (received tr₁).map some ++ [none] ∧
    Runs (encoderThread cfg.encoder cfg.wc cfg.clock) (.receive cfg.encoderCtx 0) tr₂ .done ∧
    EncodesFrames cfg.wc cfg.clock (received tr₁) tr₂ ∧
    s.encPktQ.sent = (received tr₂).map some ++ [none] ∧
    s.lagQ.sent = (List.range (received tr₁).length).map (some ∘ cfg.clock) ∧
    Runs (decoderThread cfg.fov) (.receive cfg.fovCtx) tr₃ .done ∧
    DecodesWithDrain (received tr₂) tr₃ ∧
    s.outFrmQ.sent = (received tr₃).map some ++ [none]

/-- A finished state holds the composition. Each queue is drained, so each thread's run took
all that its producer appended; a run to the return that takes those items is the one the
thread's contract gives. -/
theorem Done.composes {pkts : List AVPacket} (hc : cfg.Obeys fl₁ fl₂ fl₃)
    (hf : cfg.Finite p₁ p₂ p₃) (hfile : cfg.file = pkts.map .ok ++ [.error .eof])
    (hi : s.Inv cfg) (hd : s.Done) : s.Composes cfg pkts := by
  obtain ⟨hr, ⟨tr₁, h₁, ht₁, ho₁⟩, ⟨tr₂, h₂, ht₂, hp₂, hl₂⟩, ⟨tr₃, h₃, ht₃, ho₃⟩⟩ := hi
  rw [hfile, hd.reader] at hr
  rw [hd.source] at h₁
  rw [hd.encoder] at h₂
  rw [hd.fov] at h₃
  obtain ⟨d₁, d₂, d₃, -, -⟩ := hd.drained
  have hpkt := readerThread_history_done hr
  -- the source decoder
  obtain ⟨tr₁', h₁', hw₁⟩ :=
    decoderThread_feed hc.source hf.source (pkts.filter (keeps cfg.streamIndex)) _ hc.sourceCtx
  obtain rfl := h₁'.eq_of_takes rfl h₁ rfl (by rw [ht₁, Queue.taken_eq_sent d₁, hpkt, hw₁.1])
  have hfrm : s.frmQ.sent = (received tr₁).map some ++ [none] := Eq.trans ho₁ hw₁.2.2
  -- the encoder
  obtain ⟨tr₂', h₂', hw₂, hs₂, hq₂⟩ := encoderThread_feed hc.encoder hf.encoder cfg.wc cfg.clock
    (received tr₁) _ 0 hc.encoderCtx
  obtain rfl := h₂'.eq_of_takes rfl h₂ rfl (by rw [ht₂, Queue.taken_eq_sent d₂, hfrm, hw₂])
  have henc : EncodesFrames cfg.wc cfg.clock (received tr₁) tr₂ :=
    ⟨hw₂, by simpa [withDescriptor, descrSize] using hs₂, hq₂⟩
  have hpk : s.encPktQ.sent = (received tr₂).map some ++ [none] := hp₂.trans hq₂
  -- the foveation decoder
  obtain ⟨tr₃', h₃', hw₃⟩ := decoderThread_feed hc.fov hf.fov (received tr₂) _ hc.fovCtx
  obtain rfl := h₃'.eq_of_takes rfl h₃ rfl (by rw [ht₃, Queue.taken_eq_sent d₃, hpk, hw₃.1])
  refine ⟨hpkt, tr₁, tr₂, tr₃, h₁, hw₁, hfrm, h₂, henc, hpk, ?_, h₃, hw₃, Eq.trans ho₃ hw₃.2.2⟩
  rw [hl₂, lags_puts, henc.2.1, stamps_mapIdx]

/-- The pipeline computes the composition of its stages. On packets ending in `AVERROR_EOF`,
with codecs that obey the facade and return finitely many outputs per input, and room in
`pkt_q` and `frm_q`, every interleaving ends with the pipeline finished and each queue holding
what the three stage contracts, applied one after the other to the packets the reader keeps,
give it. -/
theorem stages_compose {pkts : List AVPacket} (hc : cfg.Obeys fl₁ fl₂ fl₃)
    (hf : cfg.Finite p₁ p₂ p₃) (hfile : cfg.file = pkts.map .ok ++ [.error .eof])
    (hpk : 0 < pktCap) (hfr : 0 < frmCap) :
    Inevitably (Pipeline.next cfg) (fun s => s.Done ∧ s.Composes cfg pkts)
      (init cfg : Pipeline σ₁ σ₂ σ₃ pktCap frmCap) :=
  (inevitably_done hc hfile hf hpk hfr).mono_reachable fun _ h hd =>
    ⟨hd, hd.composes hc hf hfile (Inv.of_reachable h)⟩

end Pipeline

theorem stages_compose_onePacket :
    (onePacket packetize).Obeys (fun s => s.flushed = true) (fun s => s.flushed = true)
      (fun s => s.flushed = true) ∧
    (onePacket packetize).file = [⟨some [0], 0⟩].map .ok ++ [.error .eof] ∧
    Inevitably (Pipeline.next (onePacket packetize))
      (fun s => s.Done ∧ s.Composes (onePacket packetize) [⟨some [0], 0⟩])
      (Pipeline.init (onePacket packetize) : Pipeline _ _ _ 32 32) :=
  have hf : (onePacket packetize).file = [⟨some [0], 0⟩].map .ok ++ [.error .eof] := rfl
  ⟨onePacket_obeys 0, hf, Pipeline.stages_compose (onePacket_obeys 0)
    ⟨Codec.delay_finite 0 _, Codec.delay_finite 0 _, Codec.delay_finite 0 _⟩ hf (by decide)
    (by decide)⟩

end FFoveated
