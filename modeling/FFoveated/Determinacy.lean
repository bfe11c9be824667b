import FFoveated.Composition

/-!
# Schedule independence of the pipeline

Each thread of the pipeline is deterministic, extracts only from its own input queue and blocks
while it is empty; each queue has one producer and one consumer and keeps its items in order.
So what a thread appends depends only on what it has extracted and on what it reads from
outside the pipeline, never on when the other threads ran: Kahn's determinacy of networks of
such processes. Only `encoder_thread` reads from outside, the window state and the clock, and it
reads them when it runs, so two interleavings may read them differently (`Config.withReads`).
Whatever the codecs and those reads, `pkt_q` and `frm_q` end every finished interleaving with
the same items, and `lag_queue` with the time each interleaving read for each of those frames;
two interleavings that read the same end in the same state, and at every point of one each
queue has received the start of what it has received at that end.

## Main definitions

- `Pipeline.SentPrefix` — each queue of one state has received the start of what the same queue
  of another has received.

## Main results

- `History.prefix_of_halt` — a thread that has extracted the start of what a finished run
  extracted has appended the start of what that run appended.
- `Pipeline.Inv.upstreamPrefix` — whatever the reads, `pkt_q` and `frm_q` of a state of the
  invariant are the start of those of every finished state.
- `Pipeline.Inv.sentPrefix` — a state of the invariant is, queue by queue, the start of every
  finished state of the invariant under the same reads.
- `Pipeline.schedule_independent` — any two finished interleavings end with the same `pkt_q` and
  `frm_q`, and in the same state where they read the same.
- `Pipeline.determinate` — where the pipeline terminates, one list of frames ends `frm_q` in
  every interleaving, whatever it reads, and one state ends every interleaving that reads the
  same.
-/

namespace FFoveated

section Kahn

variable {L I O C Out : Type} {l₀ l lh : L} {ins ins' rest : List I}

/-- A thread's appends are determined by its extracts: if it has taken the start of what a
history that ended where it halts took, then it has appended the start of what that history
appended. -/
theorem History.prefix_of_halt {P : L → Act L I O C} {R : Out → List O → Prop} {out out' : Out}
    (h : History P R l₀ l ins out) (hf : History P R l₀ lh ins' out') (hh : P lh = .halt)
    (hp : ins <+: ins' ++ rest) : ∃ outs outs', R out outs ∧ R out' outs' ∧ outs <+: outs' := by
  obtain ⟨tr, hr, rfl, ho⟩ := h
  obtain ⟨full, hfr, rfl, ho'⟩ := hf
  obtain ⟨more, rfl, -⟩ := hfr.resume hh hr hp
  exact ⟨_, _, ho, ho', by rw [Event.puts_append]; exact List.prefix_append _ _⟩

/-- The same for a thread that appends to one queue. -/
theorem History.sent_prefix {α : Type} {n : ℕ} {P : L → Act L I (Option α) C}
    {q q' : Queue (Option α) n} (h : History P Queue.Holds l₀ l ins q)
    (hf : History P Queue.Holds l₀ lh ins' q') (hh : P lh = .halt) (hp : ins <+: ins' ++ rest) :
    q.sent <+: q'.sent := by
  obtain ⟨_, _, rfl, rfl, hpre⟩ := h.prefix_of_halt hf hh hp
  exact hpre

end Kahn

/-- Two drained queues, each of which has received the start of what the other has received,
are the same queue. -/
theorem Queue.eq_of_prefix {α : Type} {n : ℕ} {q q' : Queue α n} (h : q.sent <+: q'.sent)
    (h' : q'.sent <+: q.sent) (hb : q.buf = []) (hb' : q'.buf = []) : q = q' := by
  obtain ⟨t, b, _⟩ := q
  obtain ⟨t', b', _⟩ := q'
  subst hb hb'
  simpa [Queue.sent] using h.eq_of_length (h.length_le.antisymm h'.length_le)

namespace Pipeline

variable {σ₁ σ₂ σ₃ : Type} {pktCap frmCap : ℕ} {cfg : Config σ₁ σ₂ σ₃}
  {s s' : Pipeline σ₁ σ₂ σ₃ pktCap frmCap} {clock : ℕ → Int} {wc : ℕ → WindowContext}

/-- Each queue of `s` has received the start of what the same queue of `s'` has received. -/
def SentPrefix (s s' : Pipeline σ₁ σ₂ σ₃ pktCap frmCap) : Prop :=
  s.pktQ.sent <+: s'.pktQ.sent ∧ s.frmQ.sent <+: s'.frmQ.sent ∧
    s.encPktQ.sent <+: s'.encPktQ.sent ∧ s.lagQ.sent <+: s'.lagQ.sent ∧
    s.outFrmQ.sent <+: s'.outFrmQ.sent

/-- Kahn's argument upstream of the encoder, which the encoder's reads do not reach: the reader
has appended the start of what it appended in the finished `s'`, so the source decoder has
taken the start of what it took there, and has appended the start of that too. -/
theorem Inv.upstreamPrefix (hi : s.Inv cfg) (hi' : s'.Inv (cfg.withReads clock wc))
    (hd : s'.Done) : s.pktQ.sent <+: s'.pktQ.sent ∧ s.frmQ.sent <+: s'.frmQ.sent := by
  have p₁ : s.pktQ.sent <+: s'.pktQ.sent :=
    hi.reader.sent_prefix hi'.reader (by rw [hd.reader]; rfl) (List.nil_prefix (l := []))
  exact ⟨p₁, hi.source.sent_prefix hi'.source (by rw [hd.source]; rfl)
    (s.pktQ.taken_prefix_sent.trans p₁)⟩

/-- Kahn's argument along the whole pipeline, for two states of the same reads: each thread of
`s` has taken the start of what it took in the finished `s'`, since its producer has appended
the start of what it appended there; so it has appended the start of that too. -/
theorem Inv.sentPrefix (hi : s.Inv cfg) (hi' : s'.Inv cfg) (hd : s'.Done) : SentPrefix s s' := by
  obtain ⟨p₁, p₂⟩ := hi.upstreamPrefix hi' hd
  obtain ⟨outs, _, ⟨hp, hl⟩, ⟨hp', hl'⟩, m, rfl⟩ := hi.encoder.prefix_of_halt hi'.encoder
    (by rw [hd.encoder]; rfl) (s.frmQ.taken_prefix_sent.trans p₂)
  have p₃ : s.encPktQ.sent <+: s'.encPktQ.sent := by
    rw [hp, hp', EncoderOut.packets_append]
    exact List.prefix_append _ _
  refine ⟨p₁, p₂, p₃, ?_, hi.fov.sent_prefix hi'.fov (by rw [hd.fov]; rfl)
    (s.encPktQ.taken_prefix_sent.trans p₃)⟩
  rw [hl, hl', EncoderOut.lags_append]
  exact List.prefix_append _ _

/-- Two finished states of the invariant are the same state. -/
theorem Done.eq_of_inv (hi : s.Inv cfg) (hi' : s'.Inv cfg) (hd : s.Done) (hd' : s'.Done) :
    s = s' := by
  obtain ⟨p₁, p₂, p₃, p₄, p₅⟩ := hi.sentPrefix hi' hd'
  obtain ⟨q₁, q₂, q₃, q₄, q₅⟩ := hi'.sentPrefix hi hd
  obtain ⟨b₁, b₂, b₃, b₄, b₅⟩ := hd.drained
  obtain ⟨c₁, c₂, c₃, c₄, c₅⟩ := hd'.drained
  have hr := hd.reader.trans hd'.reader.symm
  have hs := hd.source.trans hd'.source.symm
  have he := hd.encoder.trans hd'.encoder.symm
  have hf := hd.fov.trans hd'.fov.symm
  cases s
  cases s'
  congr
  exacts [Queue.eq_of_prefix p₁ q₁ b₁ c₁, Queue.eq_of_prefix p₂ q₂ b₂ c₂,
    Queue.eq_of_prefix p₃ q₃ b₃ c₃, Queue.eq_of_prefix p₄ q₄ b₄ c₄,
    Queue.eq_of_prefix p₅ q₅ b₅ c₅]

end Pipeline

namespace Pipeline

variable {σ₁ σ₂ σ₃ : Type} {pktCap frmCap : ℕ} {cfg : Config σ₁ σ₂ σ₃}
  {fl₁ : σ₁ → Prop} {fl₂ : σ₂ → Prop} {fl₃ : σ₃ → Prop} {p₁ : σ₁ → ℕ} {p₂ : σ₂ → ℕ}
  {p₃ : σ₃ → ℕ}

/-- Determinacy. On packets ending in `AVERROR_EOF`, with codecs that obey the facade and return
finitely many outputs per input, and room in `pkt_q` and `frm_q`, there are frames such that,
whatever the encoder reads for its `n`-th frame (`clock n`, `wc n`), one finished state ends
every interleaving that reads so; in it `pkt_q` has received the packets the reader keeps and
the null, `frm_q` those frames and the null, and `lag_queue` the time read for each frame; and
every such interleaving is on its way to it: at each of its points each queue has received the
start of what it has received there. -/
theorem determinate {pkts : List AVPacket} (hc : cfg.Obeys fl₁ fl₂ fl₃)
    (hfile : cfg.file = pkts.map .ok ++ [.error .eof]) (hf : cfg.Finite p₁ p₂ p₃)
    (hpk : 0 < pktCap) (hfr : 0 < frmCap) :
    ∃ frames : List AVFrame, ∀ (clock : ℕ → Int) (wc : ℕ → WindowContext),
      ∃ s' : Pipeline σ₁ σ₂ σ₃ pktCap frmCap, s'.Done ∧
        s'.pktQ.sent = (pkts.filter (keeps cfg.streamIndex)).map some ++ [none] ∧
        s'.frmQ.sent = frames.map some ++ [none] ∧
        s'.lagQ.sent = (List.range frames.length).map (some ∘ clock) ∧
        Inevitably (Pipeline.next (cfg.withReads clock wc)) (· = s')
          (init (cfg.withReads clock wc)) ∧
        ∀ s, Reachable (Pipeline.next (cfg.withReads clock wc)) (init (cfg.withReads clock wc)) s →
          SentPrefix s s' := by
  obtain ⟨tr, hr, hw⟩ :=
    decoderThread_feed hc.source hf.source (pkts.filter (keeps cfg.streamIndex)) _ hc.sourceCtx
  refine ⟨received tr, fun clock wc => ?_⟩
  have hc' : (cfg.withReads clock wc).Obeys fl₁ fl₂ fl₃ :=
    ⟨hc.source, hc.encoder, hc.fov, hc.sourceCtx, hc.encoderCtx, hc.fovCtx⟩
  have hf' : (cfg.withReads clock wc).Finite p₁ p₂ p₃ := ⟨hf.source, hf.encoder, hf.fov⟩
  have hev := inevitably_done hc' hfile hf' hpk hfr
  obtain ⟨s', h', hd'⟩ := hev.exists_reachable
  have hi' := Inv.of_reachable h'
  -- the frames are those of the one run of the source decoder on the kept packets
  obtain ⟨hpkt, tr₁, -, -, h₁, hw₁, hfrm, -, -, -, hlag, -⟩ := hd'.composes hc' hf' hfile hi'
  obtain rfl := hr.eq_of_takes rfl h₁ rfl (hw₁.1.trans hw.1.symm)
  exact ⟨s', hd', hpkt, hfrm, hlag,
    hev.mono_reachable fun _ h hd => hd.eq_of_inv (Inv.of_reachable h) hi' hd',
    fun _ h => (Inv.of_reachable h).sentPrefix hi' hd'⟩

end Pipeline

theorem determinate_onePacket :
    (onePacket packetize).Obeys (fun s => s.flushed = true) (fun s => s.flushed = true)
      (fun s => s.flushed = true) ∧
    ∃ frames : List AVFrame, ∀ (clock : ℕ → Int) (wc : ℕ → WindowContext),
      ∃ s' : Pipeline _ _ _ 32 32, s'.Done ∧
        s'.pktQ.sent =
          ([⟨some [0], 0⟩].filter (keeps (onePacket packetize).streamIndex)).map some ++ [none] ∧
        s'.frmQ.sent = frames.map some ++ [none] ∧
        s'.lagQ.sent = (List.range frames.length).map (some ∘ clock) ∧
        Inevitably (Pipeline.next ((onePacket packetize).withReads clock wc)) (· = s')
          (Pipeline.init ((onePacket packetize).withReads clock wc)) ∧
        ∀ s, Reachable (Pipeline.next ((onePacket packetize).withReads clock wc))
            (Pipeline.init ((onePacket packetize).withReads clock wc)) s →
          Pipeline.SentPrefix s s' :=
  have hf : (onePacket packetize).file = [⟨some [0], 0⟩].map .ok ++ [.error .eof] := rfl
  ⟨onePacket_obeys 0, Pipeline.determinate (onePacket_obeys 0) hf
    ⟨Codec.delay_finite 0 _, Codec.delay_finite 0 _, Codec.delay_finite 0 _⟩ (by decide)
    (by decide)⟩

end FFoveated
