import FFoveated.Decoder
import FFoveated.Reader
import FFoveated.System

/-!
# `format_ctx` in `main.c`

`main.c` runs `reader_thread` and its own `decoder_thread` on one `AVFormatContext`:
`decoder_init` copies the reader's `format_ctx` pointer, and `open_decoder`, the first thing
`decoder_thread` does, reads the stream's parameters through it. `reader_thread` calls
`avformat_close_input` on that context right after it has enqueued its null, under a `FIXME`
that asks whether this is reasonable. The reader blocks only on a full `packet_queue`, and the
decoder extracts only after `open_decoder`; so the reader can close the input before the
decoder thread has opened anything exactly when all it enqueues fits in `packet_queue`.

## Main definitions

- `MainPipeline`, `MainPipeline.next` — the two threads of `main.c`, and a display that drains
  `frame_queue`.
- `MainPipeline.Inv` — the reader's history, and an unopened decoder has extracted nothing.

## Main results

- `MainPipeline.closed_before_open` — some interleaving closes the input while the decoder
  has still to call `open_decoder` on it, exactly when the file has fewer video packets than
  the capacity of `packet_queue`.
-/

namespace FFoveated

/-- What `main.c` fixes before its threads start: the stream `reader_init` selected, the
decoder `open_decoder` finds, and the context it opens. -/
structure MainConfig (σ : Type) where
  streamIndex : Int
  codec : Codec σ AVPacket AVFrame
  avctx : σ

/-- The threads of `main.c`: `reader_thread`, `decoder_thread` (`none` before
`open_decoder`), and their `packet_queue` and `frame_queue`. -/
structure MainPipeline (σ : Type) (pktCap frmCap : ℕ) where
  reader : ReaderPc
  pktQ : Queue (Option AVPacket) pktCap
  decoder : Option (DecoderPc σ AVPacket AVFrame)
  frmQ : Queue (Option AVFrame) frmCap

/-- Who may step in `main.c`: one of its two threads, or the display. -/
inductive MainWorker
  | reader
  | decoder
  | frameSink
  deriving DecidableEq, Repr

namespace MainPipeline

variable {σ : Type} {pktCap frmCap : ℕ}

/-- The threads as they start on the container `file`, the decoder not yet opened. -/
def init (file : List (Except AVRet AVPacket)) : MainPipeline σ pktCap frmCap :=
  ⟨.read file, .create, none, .create⟩

/-- Some thread has called `pexit`. -/
def exited (s : MainPipeline σ pktCap frmCap) : Bool :=
  s.reader.isExit || s.decoder.any DecoderPc.isExit

/-- One step of the worker `w`, or `none` if it is blocked, has returned, or the process has
ended. -/
def next (cfg : MainConfig σ) (s : MainPipeline σ pktCap frmCap) (w : MainWorker) :
    Option (MainPipeline σ pktCap frmCap) :=
  if s.exited then none else
  match w with
  | .reader =>
    ((readerThread cfg.streamIndex s.reader).exec Queue.enqueue (Queue.create : Queue Empty 0)
      s.pktQ).map fun r => { s with reader := r.1, pktQ := r.2.2 }
  | .decoder =>
    ((mainDecoderThread cfg.codec cfg.avctx s.decoder).exec Queue.enqueue s.pktQ s.frmQ).map
      fun r => { s with decoder := r.1, pktQ := r.2.1, frmQ := r.2.2 }
  | .frameSink => s.frmQ.dequeue.map fun r => { s with frmQ := r.2 }

variable {cfg : MainConfig σ} {s s' : MainPipeline σ pktCap frmCap} {w : MainWorker}

theorem next_cases (h : s.next cfg w = some s') : s.exited = false ∧
    ((∃ l qi q, (readerThread cfg.streamIndex s.reader).exec Queue.enqueue
        (Queue.create : Queue Empty 0) s.pktQ = some (l, qi, q) ∧
        s' = { s with reader := l, pktQ := q }) ∨
      (∃ d qi qo, (mainDecoderThread cfg.codec cfg.avctx s.decoder).exec Queue.enqueue s.pktQ
        s.frmQ = some (d, qi, qo) ∧ s' = { s with decoder := d, pktQ := qi, frmQ := qo }) ∨
      (∃ x q, s.frmQ.dequeue = some (x, q) ∧ s' = { s with frmQ := q })) := by
  unfold next at h
  split at h
  · cases h
  · refine ⟨by simpa using ‹¬s.exited = true›, ?_⟩
    cases w <;> simp only [Option.map_eq_some'] at h <;> obtain ⟨⟨_, _⟩, he, rfl⟩ := h
    · exact .inl ⟨_, _, _, he, rfl⟩
    · exact .inr (.inl ⟨_, _, _, he, rfl⟩)
    · exact .inr (.inr ⟨_, _, he, rfl⟩)

/-- Once opened, the decoder stays opened. -/
theorem mainDecoderThread_exec {c : Codec σ AVPacket AVFrame} {avctx : σ}
    {d d' : Option (DecoderPc σ AVPacket AVFrame)} {m n : ℕ} {qi qi' : Queue (Option AVPacket) m}
    {qo qo' : Queue (Option AVFrame) n}
    (h : (mainDecoderThread c avctx d).exec Queue.enqueue qi qo = some (d', qi', qo')) :
    d' ≠ none := by
  cases d with
  | none =>
    simp only [mainDecoderThread, Act.exec, Option.some.injEq, Prod.mk.injEq] at h
    rw [← h.1]
    exact Option.some_ne_none _
  | some l =>
    rw [mainDecoderThread, Act.exec_map] at h
    obtain ⟨r, -, hr⟩ := Option.map_eq_some'.mp h
    rw [← (Prod.mk.inj hr).1]
    exact Option.some_ne_none _

/-- The reader's appends are those of one run of it on `file`, and a decoder that has not
been opened has extracted nothing. -/
structure Inv (cfg : MainConfig σ) (file : List (Except AVRet AVPacket))
    (s : MainPipeline σ pktCap frmCap) : Prop where
  reader : History (readerThread cfg.streamIndex) Queue.Holds (.read file) s.reader [] s.pktQ
  unopened : s.decoder = none → s.pktQ.taken = []

theorem Inv.next {file : List (Except AVRet AVPacket)} (hi : s.Inv cfg file)
    (h : s.next cfg w = some s') : s'.Inv cfg file := by
  obtain ⟨hr, hu⟩ := hi
  rcases (next_cases h).2 with ⟨l, qi, q, hx, rfl⟩ | ⟨d, qi, qo, hx, rfl⟩ | ⟨x, q, hx, rfl⟩
  · have hn := hr.exec Queue.holds_enqueue hx
    rw [eq_nil_of_empty qi.taken] at hn
    exact ⟨hn, fun hd => (Act.exec_enqueue_frame hx).2.1.trans (hu hd)⟩
  · exact ⟨History.of_sent hr (Act.exec_enqueue_frame hx).1,
      fun hd => absurd hd (mainDecoderThread_exec hx)⟩
  · exact ⟨hr, hu⟩

theorem Inv.of_reachable {file : List (Except AVRet AVPacket)}
    (h : Reachable (MainPipeline.next cfg) (init file) s) : s.Inv cfg file :=
  h.inv ⟨⟨[], .refl _, rfl, rfl⟩, fun _ => rfl⟩ fun _ _ _ hi hs => hi.next hs

/-- Once the reader has returned, `packet_queue` has received exactly the kept packets and the
null. -/
theorem Inv.sent_of_done {pkts : List AVPacket} {after : List (Except AVRet AVPacket)}
    (hi : s.Inv cfg (pkts.map .ok ++ .error .eof :: after)) (hd : s.reader = .done) :
    s.pktQ.sent = (pkts.filter (keeps cfg.streamIndex)).map some ++ [none] :=
  readerThread_history_done (hd ▸ hi.reader)

/-- While the decoder is unopened, the reader can run on alone as long as `packet_queue` has
room for what it appends. -/
theorem reader_run {l l' : ReaderPc} {tr : List (Event Empty (Option AVPacket) ReaderCall)}
    (hr : Runs (readerThread cfg.streamIndex) l tr l') (s : MainPipeline σ pktCap frmCap)
    (hl : s.reader = l) (hd : s.decoder = none)
    (hroom : s.pktQ.buf.length + (Event.puts tr).length ≤ pktCap) :
    ∃ s', Reachable (MainPipeline.next cfg) s s' ∧ s'.reader = l' ∧ s'.decoder = none := by
  induction hr generalizing s with
  | refl => exact ⟨s, .init, hl, hd⟩
  | @call l l₁ _ c _ hp _ ih =>
    have hx : s.exited = false := by
      simp [exited, hl, hd,
        ReaderPc.isExit_of_ne_halt (by simp [hp] : readerThread cfg.streamIndex l ≠ .halt)]
    have hs : s.next cfg .reader = some { s with reader := l₁ } := by
      simp only [MainPipeline.next, hx, hl, hp, Bool.false_eq_true, if_false, Act.exec,
        Option.map_some']
    obtain ⟨s', hr', h1, h2⟩ := ih { s with reader := l₁ } rfl hd (by simpa using hroom)
    exact ⟨s', (Reachable.step .reader .init hs).trans hr', h1, h2⟩
  | @put l l₁ _ o _ hp _ ih =>
    have hx : s.exited = false := by
      simp [exited, hl, hd,
        ReaderPc.isExit_of_ne_halt (by simp [hp] : readerThread cfg.streamIndex l ≠ .halt)]
    obtain ⟨q, hq, -, hb⟩ := Queue.enqueue_of_lt (x := o)
      (by simp at hroom; omega : s.pktQ.buf.length < pktCap)
    have hs : s.next cfg .reader = some { s with reader := l₁, pktQ := q } := by
      simp only [MainPipeline.next, hx, hl, hp, Bool.false_eq_true, if_false, Act.exec, hq,
        Option.map_some']
    obtain ⟨s', hr', h1, h2⟩ := ih { s with reader := l₁, pktQ := q } rfl hd
      (by simp only [hb, List.length_append, List.length_singleton]; simp at hroom; omega)
    exact ⟨s', (Reachable.step .reader .init hs).trans hr', h1, h2⟩
  | take _ _ => exact ‹Empty›.elim

/-- The `FIXME` on `avformat_close_input`. On a container of packets followed by
`AVERROR_EOF`, and whatever the decoder, some interleaving reaches a state where the reader
has closed the input while the decoder still has to call `open_decoder`, which then reads the
closed `format_ctx`, exactly when the video packets the reader keeps are fewer than the
capacity of `packet_queue`. -/
theorem closed_before_open (cfg : MainConfig σ) (pkts : List AVPacket)
    (after : List (Except AVRet AVPacket)) :
    (∃ s s' : MainPipeline σ pktCap frmCap,
      Reachable (MainPipeline.next cfg) (init (pkts.map .ok ++ .error .eof :: after)) s ∧
      s.reader = .done ∧ s.decoder = none ∧ s.next cfg .decoder = some s' ∧
      mainDecoderThread cfg.codec cfg.avctx s.decoder = .call .open (some (.receive cfg.avctx))) ↔
    (pkts.filter (keeps cfg.streamIndex)).length < pktCap := by
  constructor
  · rintro ⟨s, -, hs, hd, hn, -, -⟩
    have hi := Inv.of_reachable hs
    have hsent := hi.sent_of_done hd
    have hb : s.pktQ.buf = s.pktQ.sent := by simp [Queue.sent, hi.unopened hn]
    have := s.pktQ.bounded
    rw [hb, hsent] at this
    simpa using this
  · intro hk
    obtain ⟨tr, hr, hp, -⟩ := readerThread_run_eof cfg.streamIndex pkts after
    obtain ⟨s, hs, hd, hn⟩ := reader_run hr
      (init (pkts.map Except.ok ++ .error .eof :: after) : MainPipeline σ pktCap frmCap) rfl rfl
      (by simp [init, hp]; omega)
    refine ⟨s, { s with decoder := some (.receive cfg.avctx) }, hs, hd, hn, ?_, by rw [hn]; rfl⟩
    simp [MainPipeline.next, exited, hd, hn, ReaderPc.isExit, mainDecoderThread, Act.exec]

end MainPipeline

end FFoveated
