import FFoveated.Encoder
import FFoveated.Reader
import FFoveated.System

/-!
# The pipeline

The four threads of the data path run at once: `reader_thread` of `main.c` fills the reader's
`packet_queue` (`pkt_q`); the source `decoder_thread` of `codec.c` decodes it into its
`frame_queue` (`frm_q`); `encoder_thread` re-encodes that into its `packet_queue`
(`enc_pkt_q`) and stamps its `lag_queue` (`lag_q`); the foveation `decoder_thread` decodes
`enc_pkt_q` into its `frame_queue` (`out_frm_q`). The display, which is not among the sources,
drains `out_frm_q` and `lag_q`; it is modelled as two sinks that extract whatever is there.
`pexit` ends the whole process, so once a thread has called it no thread steps.

## Main definitions

- `Config` — what is fixed when the threads start: container, stream, codecs, capacities;
  and the clock and window reads of one interleaving (`Config.withReads`).
- `Pipeline`, `Pipeline.init`, `Pipeline.next` — the running pipeline and its steps.
- `Pipeline.Inv` — each thread's appends and extracts are those of one run of it.
- `Config.Obeys` — the three codecs obey the facade contract.
- `Pipeline.Closed` — a step appends nothing after a null and extracts nothing after one.

## Main results

- `Pipeline.Inv.next` — every step keeps the invariant.
- `Pipeline.Inv.lagQ_sent` — a returned encoder has stamped each frame it took.
- `Pipeline.Inv.nullLast` — each queue of the data path holds non-null items, then at most
  one null.
- `Pipeline.Inv.closed` — no step appends after a queue's null, and no stage extracts after it
  has taken its null.
-/

namespace FFoveated

variable {σ₁ σ₂ σ₃ : Type}

/-- What is fixed when the threads start: the container's read results, the stream
`reader_init` selected, each codec with the context its `*_init` opened; and what the encoder
reads from the environment as one interleaving runs it: `wc n` the window state and `clock n`
the time `encoder_thread` reads for its `n`-th frame. `foveation_descriptor` and
`av_gettime_relative` are called when the thread runs, so another interleaving may read other
values (`Config.withReads`). -/
structure Config (σ₁ σ₂ σ₃ : Type) where
  file : List (Except AVRet AVPacket)
  streamIndex : Int
  source : Codec σ₁ AVPacket AVFrame
  sourceCtx : σ₁
  encoder : Codec σ₂ AVFrame AVPacket
  encoderCtx : σ₂
  fov : Codec σ₃ AVPacket AVFrame
  fovCtx : σ₃
  wc : ℕ → WindowContext
  clock : ℕ → Int

/-- The configuration `cfg` in an interleaving whose encoder reads the time `clock n` and the
window state `wc n` for its `n`-th frame. -/
def Config.withReads (cfg : Config σ₁ σ₂ σ₃) (clock : ℕ → Int) (wc : ℕ → WindowContext) :
    Config σ₁ σ₂ σ₃ :=
  { cfg with clock := clock, wc := wc }

/-- The three codecs obey the facade contract, each read through its ghost `flushed`, and no
context starts flushed. -/
structure Config.Obeys (cfg : Config σ₁ σ₂ σ₃) (fl₁ : σ₁ → Prop) (fl₂ : σ₂ → Prop)
    (fl₃ : σ₃ → Prop) : Prop where
  source : cfg.source.Obeys fl₁
  encoder : cfg.encoder.Obeys fl₂
  fov : cfg.fov.Obeys fl₃
  sourceCtx : ¬ fl₁ cfg.sourceCtx
  encoderCtx : ¬ fl₂ cfg.encoderCtx
  fovCtx : ¬ fl₃ cfg.fovCtx

/-- The running pipeline: each thread's local state and the five queues, `pkt_q` and `frm_q`
with the capacities given to `reader_init` and `source_decoder_init`, the three others with
the capacity one that `encoder_init` and `fov_decoder_init` give them. -/
structure Pipeline (σ₁ σ₂ σ₃ : Type) (pktCap frmCap : ℕ) where
  reader : ReaderPc
  pktQ : Queue (Option AVPacket) pktCap
  source : DecoderPc σ₁ AVPacket AVFrame
  frmQ : Queue (Option AVFrame) frmCap
  encoder : EncoderPc σ₂
  encPktQ : Queue (Option AVPacket) 1
  lagQ : Queue (Option Int) 1
  fov : DecoderPc σ₃ AVPacket AVFrame
  outFrmQ : Queue (Option AVFrame) 1

/-- Who may step: one of the four threads, or the display draining one of its queues. -/
inductive Worker
  | reader
  | source
  | encoder
  | fov
  | frameSink
  | lagSink
  deriving DecidableEq, Repr

/-- `queue_append` from `encoder_thread`: a packet goes to its `packet_queue`, a timestamp to
its `lag_queue`. -/
def EncoderOut.push (qs : Queue (Option AVPacket) 1 × Queue (Option Int) 1) :
    EncoderOut → Option (Queue (Option AVPacket) 1 × Queue (Option Int) 1)
  | .packet p => (qs.1.enqueue p).map fun q => (q, qs.2)
  | .lag t => (qs.2.enqueue t).map fun q => (qs.1, q)

/-- The encoder's two queues hold its appends. -/
def EncoderOut.Holds (qs : Queue (Option AVPacket) 1 × Queue (Option Int) 1)
    (outs : List EncoderOut) : Prop :=
  qs.1.sent = EncoderOut.packets outs ∧ qs.2.sent = EncoderOut.lags outs

namespace EncoderOut

variable {qs qs' : Queue (Option AVPacket) 1 × Queue (Option Int) 1} {o : EncoderOut}

theorem push_spec (h : push qs o = some qs') :
    (∃ p, o = .packet p ∧ qs.1.enqueue p = some qs'.1 ∧ qs'.2 = qs.2) ∨
    (∃ t, o = .lag t ∧ qs.2.enqueue t = some qs'.2 ∧ qs'.1 = qs.1) := by
  cases o with
  | packet p =>
    simp only [push, Option.map_eq_some'] at h
    obtain ⟨q, hq, rfl⟩ := h
    exact .inl ⟨p, rfl, hq, rfl⟩
  | lag t =>
    simp only [push, Option.map_eq_some'] at h
    obtain ⟨q, hq, rfl⟩ := h
    exact .inr ⟨t, rfl, hq, rfl⟩

theorem holds_push {outs : List EncoderOut} (h : push qs o = some qs') (ho : Holds qs outs) :
    Holds qs' (outs ++ [o]) := by
  rcases push_spec h with ⟨p, rfl, hq, h2⟩ | ⟨t, rfl, hq, h1⟩
  · exact ⟨by simp [Queue.sent_enqueue hq, ho.1], by simp [h2, ho.2]⟩
  · exact ⟨by simp [h1, ho.1], by simp [Queue.sent_enqueue hq, ho.2]⟩

theorem taken_push (h : push qs o = some qs') :
    qs'.1.taken = qs.1.taken ∧ qs'.2.taken = qs.2.taken := by
  rcases push_spec h with ⟨p, -, hq, h2⟩ | ⟨t, -, hq, h1⟩
  · exact ⟨Queue.taken_enqueue hq, by rw [h2]⟩
  · exact ⟨by rw [h1], Queue.taken_enqueue hq⟩

theorem sent_push (h : push qs o = some qs') :
    qs.1.sent <+: qs'.1.sent ∧ qs.2.sent <+: qs'.2.sent := by
  rcases push_spec h with ⟨p, -, hq, h2⟩ | ⟨t, -, hq, h1⟩
  · exact ⟨by rw [Queue.sent_enqueue hq]; exact List.prefix_append _ _, by rw [h2]⟩
  · exact ⟨by rw [h1], by rw [Queue.sent_enqueue hq]; exact List.prefix_append _ _⟩

theorem push_eq_none :
    push qs o = none ↔
      (∃ p, o = .packet p ∧ qs.1.buf ≠ []) ∨ (∃ t, o = .lag t ∧ qs.2.buf ≠ []) := by
  cases o <;> simp [push, Queue.enqueue_eq_none, Nat.one_le_iff_ne_zero]

end EncoderOut

namespace Pipeline

variable {pktCap frmCap : ℕ}

/-- The pipeline as its threads start: the reader at the start of the container, each codec
thread at its first receive, every queue empty. -/
def init (cfg : Config σ₁ σ₂ σ₃) : Pipeline σ₁ σ₂ σ₃ pktCap frmCap where
  reader := .read cfg.file
  pktQ := .create
  source := .receive cfg.sourceCtx
  frmQ := .create
  encoder := .receive cfg.encoderCtx 0
  encPktQ := .create
  lagQ := .create
  fov := .receive cfg.fovCtx
  outFrmQ := .create

/-- Some thread has called `pexit`. -/
def exited (s : Pipeline σ₁ σ₂ σ₃ pktCap frmCap) : Bool :=
  s.reader.isExit || s.source.isExit || s.encoder.isExit || s.fov.isExit

/-- One step of the worker `w`, or `none` if it is blocked, has returned, or the process has
ended. The reader takes from no queue. -/
def next (cfg : Config σ₁ σ₂ σ₃) (s : Pipeline σ₁ σ₂ σ₃ pktCap frmCap) (w : Worker) :
    Option (Pipeline σ₁ σ₂ σ₃ pktCap frmCap) :=
  if s.exited then none else
  match w with
  | .reader =>
    ((readerThread cfg.streamIndex s.reader).exec Queue.enqueue (Queue.create : Queue Empty 0)
      s.pktQ).map
      fun r => { s with reader := r.1, pktQ := r.2.2 }
  | .source =>
    ((decoderThread cfg.source s.source).exec Queue.enqueue s.pktQ s.frmQ).map
      fun r => { s with source := r.1, pktQ := r.2.1, frmQ := r.2.2 }
  | .encoder =>
    ((encoderThread cfg.encoder cfg.wc cfg.clock s.encoder).exec EncoderOut.push s.frmQ
      (s.encPktQ, s.lagQ)).map
      fun r => { s with encoder := r.1, frmQ := r.2.1, encPktQ := r.2.2.1, lagQ := r.2.2.2 }
  | .fov =>
    ((decoderThread cfg.fov s.fov).exec Queue.enqueue s.encPktQ s.outFrmQ).map
      fun r => { s with fov := r.1, encPktQ := r.2.1, outFrmQ := r.2.2 }
  | .frameSink => s.outFrmQ.dequeue.map fun r => { s with outFrmQ := r.2 }
  | .lagSink => s.lagQ.dequeue.map fun r => { s with lagQ := r.2 }

variable {cfg : Config σ₁ σ₂ σ₃} {s s' : Pipeline σ₁ σ₂ σ₃ pktCap frmCap} {w : Worker}

/-- What one step can do: one thread steps between its queues, or the display extracts. -/
theorem next_cases (h : s.next cfg w = some s') : s.exited = false ∧
    ((∃ l qi q, (readerThread cfg.streamIndex s.reader).exec Queue.enqueue
        (Queue.create : Queue Empty 0) s.pktQ = some (l, qi, q) ∧
        s' = { s with reader := l, pktQ := q }) ∨
      (∃ l qi qo, (decoderThread cfg.source s.source).exec Queue.enqueue s.pktQ s.frmQ
        = some (l, qi, qo) ∧ s' = { s with source := l, pktQ := qi, frmQ := qo }) ∨
      (∃ l qi qs, (encoderThread cfg.encoder cfg.wc cfg.clock s.encoder).exec EncoderOut.push
        s.frmQ (s.encPktQ, s.lagQ) = some (l, qi, qs) ∧
        s' = { s with encoder := l, frmQ := qi, encPktQ := qs.1, lagQ := qs.2 }) ∨
      (∃ l qi qo, (decoderThread cfg.fov s.fov).exec Queue.enqueue s.encPktQ s.outFrmQ
        = some (l, qi, qo) ∧ s' = { s with fov := l, encPktQ := qi, outFrmQ := qo }) ∨
      (∃ x q, s.outFrmQ.dequeue = some (x, q) ∧ s' = { s with outFrmQ := q }) ∨
      (∃ x q, s.lagQ.dequeue = some (x, q) ∧ s' = { s with lagQ := q })) := by
  unfold next at h
  split at h
  · cases h
  · refine ⟨by simpa using ‹¬s.exited = true›, ?_⟩
    cases w <;> simp only [Option.map_eq_some'] at h <;> obtain ⟨⟨_, _⟩, he, rfl⟩ := h
    · exact .inl ⟨_, _, _, he, rfl⟩
    · exact .inr (.inl ⟨_, _, _, he, rfl⟩)
    · exact .inr (.inr (.inl ⟨_, _, _, he, rfl⟩))
    · exact .inr (.inr (.inr (.inl ⟨_, _, _, he, rfl⟩)))
    · exact .inr (.inr (.inr (.inr (.inl ⟨_, _, he, rfl⟩))))
    · exact .inr (.inr (.inr (.inr (.inr ⟨_, _, he, rfl⟩))))

/-! ## The invariant -/

/-- What each thread has taken and appended is what one run of it from its start took and
appended. -/
structure Inv (cfg : Config σ₁ σ₂ σ₃) (s : Pipeline σ₁ σ₂ σ₃ pktCap frmCap) : Prop where
  reader : History (readerThread cfg.streamIndex) Queue.Holds (.read cfg.file) s.reader [] s.pktQ
  source : History (decoderThread cfg.source) Queue.Holds (.receive cfg.sourceCtx) s.source
    s.pktQ.taken s.frmQ
  encoder : History (encoderThread cfg.encoder cfg.wc cfg.clock) EncoderOut.Holds
    (.receive cfg.encoderCtx 0) s.encoder s.frmQ.taken (s.encPktQ, s.lagQ)
  fov : History (decoderThread cfg.fov) Queue.Holds (.receive cfg.fovCtx) s.fov s.encPktQ.taken
    s.outFrmQ

theorem inv_init : (init cfg : Pipeline σ₁ σ₂ σ₃ pktCap frmCap).Inv cfg :=
  ⟨⟨[], .refl _, rfl, rfl⟩, ⟨[], .refl _, rfl, rfl⟩, ⟨[], .refl _, rfl, rfl, rfl⟩,
    ⟨[], .refl _, rfl, rfl⟩⟩

theorem Inv.next (hi : s.Inv cfg) (h : s.next cfg w = some s') : s'.Inv cfg := by
  obtain ⟨hr, hs, he, hf⟩ := hi
  rcases (next_cases h).2 with ⟨l, qi, q, hx, rfl⟩ | ⟨l, qi, qo, hx, rfl⟩ |
    ⟨l, qi, qs, hx, rfl⟩ | ⟨l, qi, qo, hx, rfl⟩ | ⟨x, q, hx, rfl⟩ | ⟨x, q, hx, rfl⟩
  · have hn := hr.exec Queue.holds_enqueue hx
    rw [eq_nil_of_empty qi.taken] at hn
    exact ⟨hn, (Act.exec_enqueue_frame hx).2.1 ▸ hs, he, hf⟩
  · obtain ⟨h1, h2, -⟩ := Act.exec_enqueue_frame hx
    exact ⟨History.of_sent hr h1, hs.exec Queue.holds_enqueue hx, h2 ▸ he, hf⟩
  · obtain ⟨h1, rfl | ⟨o, ho⟩⟩ := Act.exec_frame hx
    · exact ⟨hr, History.of_sent hs h1, he.exec EncoderOut.holds_push hx, hf⟩
    · exact ⟨hr, History.of_sent hs h1, he.exec EncoderOut.holds_push hx,
        (EncoderOut.taken_push ho).1 ▸ hf⟩
  · obtain ⟨h1, -, -⟩ := Act.exec_enqueue_frame hx
    obtain ⟨tr, htr, ht, ho, hl⟩ := he
    exact ⟨hr, hs, ⟨tr, htr, ht, h1.trans ho, hl⟩, hf.exec Queue.holds_enqueue hx⟩
  · exact ⟨hr, hs, he, History.of_sent hf (Queue.sent_dequeue hx)⟩
  · obtain ⟨tr, htr, ht, ho, hl⟩ := he
    exact ⟨hr, hs, ⟨tr, htr, ht, ho, (Queue.sent_dequeue hx).trans hl⟩, hf⟩

theorem Inv.of_reachable (h : Reachable (Pipeline.next cfg) (init cfg) s) : s.Inv cfg :=
  h.inv inv_init fun _ _ _ hi hs => hi.next hs

/-- Whatever the codecs answer, once the encoder has returned `lag_queue` holds the clock read
for each frame it took, in order. -/
theorem Inv.lagQ_sent (hi : s.Inv cfg) (he : s.encoder = .done) :
    s.lagQ.sent = (List.range (s.frmQ.taken.filterMap id).length).map (some ∘ cfg.clock) := by
  obtain ⟨_, ⟨-, hl⟩, hs⟩ := hi.encoder.inv encoderThread_stamps (by exact ⟨rfl, rfl⟩)
  rw [he] at hs
  exact hl.trans hs

/-! ## Safety -/

/-- What each thread's own invariant says of the pipeline. -/
structure Local (cfg : Config σ₁ σ₂ σ₃) (fl₁ : σ₁ → Prop) (fl₂ : σ₂ → Prop) (fl₃ : σ₃ → Prop)
    (s : Pipeline σ₁ σ₂ σ₃ pktCap frmCap) : Prop where
  reader : s.reader.Inv cfg.streamIndex cfg.file [] s.pktQ.sent
  source : s.source.Inv cfg.source fl₁ s.pktQ.taken s.frmQ.sent
  encoder : ∃ outs, EncoderOut.Holds (s.encPktQ, s.lagQ) outs ∧
    s.encoder.Inv cfg.encoder fl₂ s.frmQ.taken outs
  fov : s.fov.Inv cfg.fov fl₃ s.encPktQ.taken s.outFrmQ.sent

variable {fl₁ : σ₁ → Prop} {fl₂ : σ₂ → Prop} {fl₃ : σ₃ → Prop}

theorem Inv.local (hc : cfg.Obeys fl₁ fl₂ fl₃) (hi : s.Inv cfg) : s.Local cfg fl₁ fl₂ fl₃ := by
  obtain ⟨_, rfl, hr⟩ := hi.reader.inv (readerThread_preserves _ _) (ReaderPc.inv_start _ _)
  obtain ⟨_, rfl, hs⟩ := hi.source.inv (decoderThread_preserves hc.source)
    (DecoderPc.inv_start hc.sourceCtx)
  obtain ⟨_, rfl, hv⟩ := hi.fov.inv (decoderThread_preserves hc.fov) (DecoderPc.inv_start hc.fovCtx)
  exact ⟨hr, hs, hi.encoder.inv (encoderThread_preserves hc.encoder)
    (EncoderPc.inv_start hc.encoderCtx), hv⟩

/-- Each queue of the data path holds non-null items, then at most one null, and the null is
there exactly when its producer has finished. -/
theorem Local.nullLast (h : s.Local cfg fl₁ fl₂ fl₃) :
    NullLast s.pktQ.sent ∧ NullLast s.frmQ.sent ∧ NullLast s.encPktQ.sent ∧
      NullLast s.outFrmQ.sent := by
  obtain ⟨outs, ⟨ho, -⟩, he⟩ := h.encoder
  refine ⟨?_, ?_, ho ▸ ?_, ?_⟩
  · rcases h.reader.outs with ⟨-, hu⟩ | ⟨-, ht⟩
    exacts [.inr hu, .inl ht]
  · rcases h.source.outs with ⟨-, hu⟩ | ⟨-, ht⟩
    exacts [.inr hu, .inl ht]
  · rcases he.packets with ⟨-, hu⟩ | ⟨-, ht⟩
    exacts [.inr hu, .inl ht]
  · rcases h.fov.outs with ⟨-, hu⟩ | ⟨-, ht⟩
    exacts [.inr hu, .inl ht]

/-- A step only extends what was appended to each queue. -/
theorem next_sent (h : s.next cfg w = some s') :
    s.pktQ.sent <+: s'.pktQ.sent ∧ s.frmQ.sent <+: s'.frmQ.sent ∧
      s.encPktQ.sent <+: s'.encPktQ.sent ∧ s.outFrmQ.sent <+: s'.outFrmQ.sent := by
  rcases (next_cases h).2 with ⟨l, qi, q, hx, rfl⟩ | ⟨l, qi, qo, hx, rfl⟩ |
    ⟨l, qi, qs, hx, rfl⟩ | ⟨l, qi, qo, hx, rfl⟩ | ⟨x, q, hx, rfl⟩ | ⟨x, q, hx, rfl⟩
  · exact ⟨(Act.exec_enqueue_frame hx).2.2, List.prefix_refl _, List.prefix_refl _,
      List.prefix_refl _⟩
  · obtain ⟨h1, -, h2⟩ := Act.exec_enqueue_frame hx
    exact ⟨h1 ▸ List.prefix_refl _, h2, List.prefix_refl _, List.prefix_refl _⟩
  · obtain ⟨h1, rfl | ⟨o, ho⟩⟩ := Act.exec_frame hx
    · exact ⟨List.prefix_refl _, h1 ▸ List.prefix_refl _, List.prefix_refl _, List.prefix_refl _⟩
    · exact ⟨List.prefix_refl _, h1 ▸ List.prefix_refl _, (EncoderOut.sent_push ho).1,
        List.prefix_refl _⟩
  · obtain ⟨h1, -, h2⟩ := Act.exec_enqueue_frame hx
    exact ⟨List.prefix_refl _, List.prefix_refl _, h1 ▸ List.prefix_refl _, h2⟩
  · exact ⟨List.prefix_refl _, List.prefix_refl _, List.prefix_refl _,
      (Queue.sent_dequeue hx) ▸ List.prefix_refl _⟩
  · exact ⟨List.prefix_refl _, List.prefix_refl _, List.prefix_refl _, List.prefix_refl _⟩

/-- A step appends nothing to a queue of the data path after its null, and no stage extracts
from its input queue after it has taken the null. -/
def Closed (s s' : Pipeline σ₁ σ₂ σ₃ pktCap frmCap) : Prop :=
  (Terminated s.pktQ.sent → s'.pktQ.sent = s.pktQ.sent) ∧
  (Terminated s.frmQ.sent → s'.frmQ.sent = s.frmQ.sent) ∧
  (Terminated s.encPktQ.sent → s'.encPktQ.sent = s.encPktQ.sent) ∧
  (Terminated s.outFrmQ.sent → s'.outFrmQ.sent = s.outFrmQ.sent) ∧
  (Terminated s.pktQ.taken → s'.pktQ.taken = s.pktQ.taken) ∧
  (Terminated s.frmQ.taken → s'.frmQ.taken = s.frmQ.taken) ∧
  (Terminated s.encPktQ.taken → s'.encPktQ.taken = s.encPktQ.taken)

/-- After its null, a queue's history that keeps the discipline is what it was. -/
theorem eq_of_terminated {α : Type} {xs ys : List (Option α)} (ht : Terminated xs)
    (hp : xs <+: ys) (hn : NullLast ys) : ys = xs := by
  obtain ⟨zs, rfl⟩ := hp
  rw [ht.eq_of_append hn, List.append_nil]

/-- A stage that has taken its null extracts nothing more. -/
theorem Inv.taken_closed (hc : cfg.Obeys fl₁ fl₂ fl₃) (hi : s.Inv cfg)
    (h : s.next cfg w = some s') :
    (Terminated s.pktQ.taken → s'.pktQ.taken = s.pktQ.taken) ∧
    (Terminated s.frmQ.taken → s'.frmQ.taken = s.frmQ.taken) ∧
    (Terminated s.encPktQ.taken → s'.encPktQ.taken = s.encPktQ.taken) := by
  have hl := hi.local hc
  obtain ⟨outs, -, he⟩ := hl.encoder
  rcases (next_cases h).2 with ⟨l, qi, q, hx, rfl⟩ | ⟨l, qi, qo, hx, rfl⟩ |
    ⟨l, qi, qs, hx, rfl⟩ | ⟨l, qi, qo, hx, rfl⟩ | ⟨x, q, hx, rfl⟩ | ⟨x, q, hx, rfl⟩
  · exact ⟨fun _ => (Act.exec_enqueue_frame hx).2.1, fun _ => rfl, fun _ => rfl⟩
  · exact ⟨fun ht => by rw [Act.exec_input hx (hl.source.not_take ht)],
      fun _ => (Act.exec_enqueue_frame hx).2.1, fun _ => rfl⟩
  · refine ⟨fun _ => rfl, fun ht => by rw [Act.exec_input hx (he.not_take ht)], fun _ => ?_⟩
    obtain ⟨-, rfl | ⟨o, ho⟩⟩ := Act.exec_frame hx
    exacts [rfl, (EncoderOut.taken_push ho).1]
  · exact ⟨fun _ => rfl, fun _ => rfl, fun ht => by rw [Act.exec_input hx (hl.fov.not_take ht)]⟩
  · exact ⟨fun _ => rfl, fun _ => rfl, fun _ => rfl⟩
  · exact ⟨fun _ => rfl, fun _ => rfl, fun _ => rfl⟩

theorem Inv.closed (hc : cfg.Obeys fl₁ fl₂ fl₃) (hi : s.Inv cfg) (h : s.next cfg w = some s') :
    Closed s s' := by
  obtain ⟨n1, n2, n3, n4⟩ := ((hi.next h).local hc).nullLast
  obtain ⟨p1, p2, p3, p4⟩ := next_sent h
  exact ⟨fun ht => eq_of_terminated ht p1 n1, fun ht => eq_of_terminated ht p2 n2,
    fun ht => eq_of_terminated ht p3 n3, fun ht => eq_of_terminated ht p4 n4,
    hi.taken_closed hc h⟩

end Pipeline

end FFoveated
