import FFoveated.Pipeline

/-!
# Progress of the pipeline

On a container of packets ending in `AVERROR_EOF`, with codecs that obey the facade and return
finitely many outputs per input, and with room for at least one item in `pkt_q` and `frm_q`,
every interleaving of the four threads and the display ends with every thread returned and
every queue of the data path ended by its null. Two facts give this: every step lowers a
lexicographic ranking (each thread's own, in pipeline order, since a step only fills queues
downstream of it), and a state where no worker can step is that final state, because a blocked
producer would need a full queue whose consumer is blocked too.

## Main definitions

- `Config.Finite` — each codec returns finitely many outputs per input.
- `Pipeline.rank` — the ranking every step lowers.
- `Pipeline.Done` — every thread returned, every queue ended by its null and drained.

## Main results

- `Pipeline.rank_next` — every step lowers the ranking.
- `Pipeline.Inv.progress` — a state where no worker can step is `Done`.
- `Pipeline.sentinel_protocol` — the sentinel protocol of the data path, safety and progress.
-/

namespace FFoveated

variable {σ α β : Type}

/-- The lexicographic order on triples of naturals. -/
def Lex3 : ℕ × ℕ × ℕ → ℕ × ℕ × ℕ → Prop := Prod.Lex (· < ·) (Prod.Lex (· < ·) (· < ·))

theorem lex3_wf : WellFounded Lex3 :=
  WellFounded.prod_lex wellFounded_lt (WellFounded.prod_lex wellFounded_lt wellFounded_lt)

theorem lex3_iff {a b : ℕ × ℕ × ℕ} :
    Lex3 a b ↔ a.1 < b.1 ∨ a.1 = b.1 ∧ (a.2.1 < b.2.1 ∨ a.2.1 = b.2.1 ∧ a.2.2 < b.2.2) := by
  simp only [Lex3, Prod.lex_def]

/-! ## Each thread's ranking -/

/-- The reader's ranking: four for each read result left, then the place in the loop. -/
def ReaderPc.rank : ReaderPc → ℕ
  | .read file => 4 * file.length + 3
  | .append _ file => 4 * file.length + 4
  | .drop _ file => 4 * file.length + 5
  | .flush => 2
  | .close => 1
  | .done | .exit _ => 0

theorem readerThread_rank {streamIndex : Int} {m n : ℕ} {l l' : ReaderPc} {qi qi' : Queue Empty m}
    {q q' : Queue (Option AVPacket) n}
    (h : (readerThread streamIndex l).exec Queue.enqueue qi q = some (l', qi', q')) :
    l'.rank < l.rank := by
  rcases Act.exec_cases h with ⟨c, hc, -⟩ | ⟨o, hc, -⟩ | ⟨k, i, hk, -⟩
  · cases l with
    | read file =>
      simp only [readerThread, Act.call.injEq] at hc
      obtain ⟨-, rfl⟩ := hc
      rcases file with _ | ⟨e | pkt, file⟩
      · simp [avReadFrame, ReaderPc.afterRead, ReaderPc.rank]
      · cases e <;> simp [avReadFrame, ReaderPc.afterRead, ReaderPc.rank]
      · simp only [avReadFrame, ReaderPc.afterRead_ok]
        split <;> simp only [ReaderPc.rank, List.length_cons] <;> omega
    | drop | close =>
      simp only [readerThread, Act.call.injEq] at hc
      obtain ⟨-, rfl⟩ := hc
      simp [ReaderPc.rank]
    | _ => simp [readerThread] at hc
  · cases l <;> simp only [readerThread, Act.put.injEq, reduceCtorEq] at hc <;>
      obtain ⟨-, rfl⟩ := hc <;> simp [ReaderPc.rank]
  · cases l <;> simp [readerThread] at hk

/-- A decoder's ranking with `queued` packets waiting in its input queue: two for each of them
and one for a packet in hand, then the codec's pending outputs, then the place in the loop. -/
def DecoderPc.rank (pending : σ → ℕ) (queued : ℕ) : DecoderPc σ α β → ℕ × ℕ × ℕ
  | .receive s => (2 * queued, pending s, 2)
  | .append s _ => (2 * queued, pending s, 3)
  | .extract s => (2 * queued, pending s, 1)
  | .supply s _ => (2 * queued + 1, pending s, 0)
  | .flush => (2 * queued, 0, 1)
  | .done | .exit _ => (2 * queued, 0, 0)

theorem decoderThread_rank {c : Codec σ α β} {flushed : σ → Prop} {pending : σ → ℕ}
    (hc : c.Obeys flushed) (hf : c.Finite pending) {Out : Type} {push : Out → Option β → Option Out}
    {n : ℕ} {l l' : DecoderPc σ α β} {qi qi' : Queue (Option α) n} {out out' : Out}
    (h : (decoderThread c l).exec push qi out = some (l', qi', out')) :
    Lex3 (l'.rank pending qi'.buf.length) (l.rank pending qi.buf.length) := by
  rcases Act.exec_cases h with ⟨_, hc', rfl, -⟩ | ⟨o, hc', rfl, -⟩ | ⟨k, i, hk, rfl, hd, -⟩
  · cases l with
    | receive s =>
      simp only [decoderThread, Act.call.injEq] at hc'
      obtain ⟨-, rfl⟩ := hc'
      rcases hc.receive_cases s with ⟨y, hy⟩ | hy | hy <;>
        simp only [hy, DecoderPc.afterReceive, DecoderPc.rank, lex3_iff, true_and]
      · have := hf.receive_ok s y hy
        omega
      · have := hf.receive_error s _ hy
        omega
      · omega
    | supply s p =>
      simp only [decoderThread, Act.call.injEq] at hc'
      obtain ⟨-, rfl⟩ := hc'
      unfold DecoderPc.afterSupply
      split <;> simp [DecoderPc.rank, lex3_iff]
    | _ => simp [decoderThread] at hc'
  · cases l <;> simp only [decoderThread, Act.put.injEq, reduceCtorEq] at hc' <;>
      obtain ⟨-, rfl⟩ := hc' <;> simp [DecoderPc.rank, lex3_iff]
  · cases l with
    | extract s =>
      simp only [decoderThread, Act.take.injEq] at hk
      subst hk
      simp only [DecoderPc.rank, lex3_iff, (Queue.dequeue_spec hd).1, List.length_cons]
      omega
    | _ => simp [decoderThread] at hk

/-- The encoder's ranking with `queued` frames waiting in its input queue: three for each of
them, two for a frame in hand and one for a timestamp still to append, then the codec's
pending outputs, then the place in the loop. -/
def EncoderPc.rank (pending : σ → ℕ) (queued : ℕ) : EncoderPc σ → ℕ × ℕ × ℕ
  | .receive s _ => (3 * queued, pending s, 2)
  | .append s _ _ => (3 * queued, pending s, 3)
  | .extract s _ => (3 * queued, pending s, 1)
  | .supply s _ _ => (3 * queued + 2, pending s, 0)
  | .stamp s _ => (3 * queued + 1, pending s, 0)
  | .flush => (3 * queued, 0, 1)
  | .done | .exit _ => (3 * queued, 0, 0)

theorem encoderThread_rank {c : Codec σ AVFrame AVPacket} {flushed : σ → Prop} {pending : σ → ℕ}
    {wc : ℕ → WindowContext} {clock : ℕ → Int} (hc : c.Obeys flushed) (hf : c.Finite pending)
    {Out : Type} {push : Out → EncoderOut → Option Out} {n : ℕ} {l l' : EncoderPc σ}
    {qi qi' : Queue (Option AVFrame) n} {out out' : Out}
    (h : (encoderThread c wc clock l).exec push qi out = some (l', qi', out')) :
    Lex3 (l'.rank pending qi'.buf.length) (l.rank pending qi.buf.length) := by
  rcases Act.exec_cases h with ⟨_, hc', rfl, -⟩ | ⟨o, hc', rfl, -⟩ | ⟨k, i, hk, rfl, hd, -⟩
  · cases l with
    | receive s m =>
      simp only [encoderThread, Act.call.injEq] at hc'
      obtain ⟨-, rfl⟩ := hc'
      rcases hc.receive_cases s with ⟨y, hy⟩ | hy | hy <;>
        simp only [hy, EncoderPc.afterReceive, EncoderPc.rank, lex3_iff, true_and]
      · have := hf.receive_ok s y hy
        omega
      · have := hf.receive_error s _ hy
        omega
      · omega
    | supply s m f =>
      simp only [encoderThread, Act.call.injEq] at hc'
      obtain ⟨-, rfl⟩ := hc'
      unfold EncoderPc.afterSupply
      split <;> simp [EncoderPc.rank, lex3_iff]
    | _ => simp [encoderThread] at hc'
  · cases l <;> simp only [encoderThread, Act.put.injEq, reduceCtorEq] at hc' <;>
      obtain ⟨-, rfl⟩ := hc' <;> simp [EncoderPc.rank, lex3_iff]
  · cases l with
    | extract s m =>
      simp only [encoderThread, Act.take.injEq] at hk
      subst hk
      have hb := (Queue.dequeue_spec hd).1
      cases i <;> simp only [EncoderPc.afterExtract, EncoderPc.rank, lex3_iff, hb,
        List.length_cons] <;> omega
    | _ => simp [encoderThread] at hk

/-! ## Blocked threads -/

section Blocked

variable {m n : ℕ}

/-- A decoder that cannot step while its output queue is empty has emptied its input queue,
and once its input has received the null it has returned, after appending its own null. -/
theorem DecoderPc.Inv.blocked {c : Codec σ α β} {flushed : σ → Prop} {l : DecoderPc σ α β}
    {qi : Queue (Option α) m} {qo : Queue (Option β) n} (hi : l.Inv c flushed qi.taken qo.sent)
    (h : (decoderThread c l).exec Queue.enqueue qi qo = none) (hn : 0 < n) (ho : qo.buf = [])
    (hs : NullLast qi.sent) :
    qi.buf = [] ∧ (Terminated qi.sent → l = .done ∧ Terminated qo.sent) := by
  rcases Act.exec_eq_none.mp h with hh | ⟨o, l', -, hq⟩ | ⟨k, hk, hb⟩
  · cases l <;> simp [decoderThread] at hh
    case done => exact ⟨Queue.buf_eq_nil hi.1 hs, fun _ => ⟨rfl, hi.2⟩⟩
    case exit => exact hi.elim
  · have := Queue.enqueue_eq_none.mp hq
    simp [ho] at this
    omega
  · cases l <;> simp [decoderThread] at hk
    refine ⟨hb, fun ht => absurd hi.1 ?_⟩
    simpa [Queue.sent, hb] using ht.not_unterminated

/-- The encoder, blocked while both its output queues are empty, has emptied its input queue,
and once its input has received the null it has returned, after appending its own null to
`packet_queue`. -/
theorem EncoderPc.Inv.blocked {c : Codec σ AVFrame AVPacket} {flushed : σ → Prop}
    {wc : ℕ → WindowContext} {clock : ℕ → Int} {l : EncoderPc σ} {outs : List EncoderOut}
    {qi : Queue (Option AVFrame) m} {qs : Queue (Option AVPacket) 1 × Queue (Option Int) 1}
    (hi : l.Inv c flushed qi.taken outs) (hq : EncoderOut.Holds qs outs)
    (h : (encoderThread c wc clock l).exec EncoderOut.push qi qs = none) (h1 : qs.1.buf = [])
    (h2 : qs.2.buf = []) (hs : NullLast qi.sent) :
    qi.buf = [] ∧ (Terminated qi.sent → l = .done ∧ Terminated qs.1.sent) := by
  rcases Act.exec_eq_none.mp h with hh | ⟨o, l', -, hp⟩ | ⟨k, hk, hb⟩
  · cases l <;> simp [encoderThread] at hh
    case done => exact ⟨Queue.buf_eq_nil hi.1 hs, fun _ => ⟨rfl, hq.1 ▸ hi.2.1⟩⟩
    case exit => exact hi.elim
  · rcases EncoderOut.push_eq_none.mp hp with ⟨p, -, hp⟩ | ⟨t, -, ht⟩
    exacts [absurd h1 hp, absurd h2 ht]
  · cases l <;> simp [encoderThread] at hk
    refine ⟨hb, fun ht => absurd hi.1 ?_⟩
    simpa [Queue.sent, hb] using ht.not_unterminated

/-- The reader, blocked while its queue is empty, has returned or called `pexit`. -/
theorem readerThread_blocked {streamIndex : Int} {l : ReaderPc} {qi : Queue Empty m}
    {q : Queue (Option AVPacket) n}
    (h : (readerThread streamIndex l).exec Queue.enqueue qi q = none)
    (hx : l.isExit = false) (hn : 0 < n) (hq : q.buf = []) : l = .done := by
  rcases Act.exec_eq_none.mp h with hh | ⟨o, l', -, hp⟩ | ⟨k, hk, -⟩
  · cases l <;> simp_all [readerThread, ReaderPc.isExit]
  · have := Queue.enqueue_eq_none.mp hp
    simp [hq] at this
    omega
  · cases l <;> simp [readerThread] at hk

end Blocked

/-! ## The pipeline -/

variable {σ₁ σ₂ σ₃ : Type} {pktCap frmCap : ℕ}

/-- Each codec returns finitely many outputs per input, as measured by its ranking. -/
structure Config.Finite (cfg : Config σ₁ σ₂ σ₃) (p₁ : σ₁ → ℕ) (p₂ : σ₂ → ℕ) (p₃ : σ₃ → ℕ) :
    Prop where
  source : cfg.source.Finite p₁
  encoder : cfg.encoder.Finite p₂
  fov : cfg.fov.Finite p₃

namespace Pipeline

/-- The pipeline's ranking: the reader's, then each codec thread's in pipeline order, then
what the display still has to drain. -/
def rank (p₁ : σ₁ → ℕ) (p₂ : σ₂ → ℕ) (p₃ : σ₃ → ℕ) (s : Pipeline σ₁ σ₂ σ₃ pktCap frmCap) :
    ℕ × (ℕ × ℕ × ℕ) × (ℕ × ℕ × ℕ) × (ℕ × ℕ × ℕ) × ℕ :=
  (s.reader.rank, s.source.rank p₁ s.pktQ.buf.length, s.encoder.rank p₂ s.frmQ.buf.length,
    s.fov.rank p₃ s.encPktQ.buf.length, s.outFrmQ.buf.length + s.lagQ.buf.length)

/-- The lexicographic order of the ranking. -/
def RankLt : ℕ × (ℕ × ℕ × ℕ) × (ℕ × ℕ × ℕ) × (ℕ × ℕ × ℕ) × ℕ →
    ℕ × (ℕ × ℕ × ℕ) × (ℕ × ℕ × ℕ) × (ℕ × ℕ × ℕ) × ℕ → Prop :=
  Prod.Lex (· < ·) (Prod.Lex Lex3 (Prod.Lex Lex3 (Prod.Lex Lex3 (· < ·))))

theorem rankLt_wf : WellFounded RankLt :=
  WellFounded.prod_lex wellFounded_lt (WellFounded.prod_lex lex3_wf
    (WellFounded.prod_lex lex3_wf (WellFounded.prod_lex lex3_wf wellFounded_lt)))

variable {cfg : Config σ₁ σ₂ σ₃} {s s' : Pipeline σ₁ σ₂ σ₃ pktCap frmCap} {w : Worker}
  {fl₁ : σ₁ → Prop} {fl₂ : σ₂ → Prop} {fl₃ : σ₃ → Prop} {p₁ : σ₁ → ℕ} {p₂ : σ₂ → ℕ}
  {p₃ : σ₃ → ℕ}

/-- Every step lowers the ranking: a thread's step lowers its own part and changes only the
parts after it. -/
theorem rank_next (hc : cfg.Obeys fl₁ fl₂ fl₃) (hf : cfg.Finite p₁ p₂ p₃)
    (h : s.next cfg w = some s') : RankLt (s'.rank p₁ p₂ p₃) (s.rank p₁ p₂ p₃) := by
  rcases (next_cases h).2 with ⟨l, qi, q, hx, rfl⟩ | ⟨l, qi, qo, hx, rfl⟩ |
    ⟨l, qi, qs, hx, rfl⟩ | ⟨l, qi, qo, hx, rfl⟩ | ⟨x, q, hx, rfl⟩ | ⟨x, q, hx, rfl⟩
  · exact .left _ _ (readerThread_rank hx)
  · exact .right _ (.left _ _ (decoderThread_rank hc.source hf.source hx))
  · exact .right _ (.right _ (.left _ _ (encoderThread_rank hc.encoder hf.encoder hx)))
  · exact .right _ (.right _ (.right _ (.left _ _ (decoderThread_rank hc.fov hf.fov hx))))
  · refine .right _ (.right _ (.right _ (.right _ ?_)))
    simp only [(Queue.dequeue_spec hx).1, List.length_cons]
    omega
  · refine .right _ (.right _ (.right _ (.right _ ?_)))
    simp only [(Queue.dequeue_spec hx).1, List.length_cons]
    omega

/-- The pipeline has finished: every thread has returned, each queue of the data path ends
with its null, and every queue is empty. -/
structure Done (s : Pipeline σ₁ σ₂ σ₃ pktCap frmCap) : Prop where
  reader : s.reader = .done
  source : s.source = .done
  encoder : s.encoder = .done
  fov : s.fov = .done
  pktQ : Terminated s.pktQ.sent
  frmQ : Terminated s.frmQ.sent
  encPktQ : Terminated s.encPktQ.sent
  outFrmQ : Terminated s.outFrmQ.sent
  drained : s.pktQ.buf = [] ∧ s.frmQ.buf = [] ∧ s.encPktQ.buf = [] ∧ s.lagQ.buf = [] ∧
    s.outFrmQ.buf = []

/-- Once finished, nothing can step. -/
theorem Done.next_eq_none (hd : s.Done) (w : Worker) : s.next cfg w = none := by
  obtain ⟨hr, hs, he, hf, -, -, -, -, h1, h2, h3, h4, h5⟩ := hd
  unfold next
  split
  · rfl
  · cases w <;> simp [hr, hs, he, hf, readerThread, decoderThread, encoderThread, Act.exec,
      Queue.dequeue_eq_none, h4, h5]

/-- On packets ending in `AVERROR_EOF` no thread calls `pexit`. -/
theorem Inv.exited {pkts : List AVPacket} (hc : cfg.Obeys fl₁ fl₂ fl₃)
    (hfile : cfg.file = pkts.map .ok ++ [.error .eof]) (hi : s.Inv cfg) : s.exited = false := by
  obtain ⟨tr, hr, -⟩ := hi.reader
  rw [hfile] at hr
  have hl := hi.local hc
  obtain ⟨outs, -, he⟩ := hl.encoder
  simp [Pipeline.exited, readerThread_isExit hr, hl.source.isExit, he.isExit, hl.fov.isExit]

/-- A state where no worker can step, and no thread has called `pexit`, is the finished
pipeline. -/
theorem Inv.done_of_stuck (hc : cfg.Obeys fl₁ fl₂ fl₃) (hpk : 0 < pktCap) (hfr : 0 < frmCap)
    (hi : s.Inv cfg) (hx : s.exited = false) (hn : ∀ w, s.next cfg w = none) : s.Done := by
  have hl := hi.local hc
  obtain ⟨n1, n2, n3, -⟩ := hl.nullLast
  obtain ⟨outs, ho, he⟩ := hl.encoder
  have hout := Queue.dequeue_eq_none.mp (by simpa [Pipeline.next, hx] using hn .frameSink)
  have hlag := Queue.dequeue_eq_none.mp (by simpa [Pipeline.next, hx] using hn .lagSink)
  -- from the display back to the reader, each queue is empty
  obtain ⟨henc, hfov⟩ :=
    hl.fov.blocked (by simpa [Pipeline.next, hx] using hn .fov) Nat.one_pos hout n3
  obtain ⟨hfrm, hencd⟩ :=
    he.blocked ho (by simpa [Pipeline.next, hx] using hn .encoder) henc hlag n2
  obtain ⟨hpkt, hsrc⟩ :=
    hl.source.blocked (by simpa [Pipeline.next, hx] using hn .source) hfr hfrm n1
  have hrd := readerThread_blocked (by simpa [Pipeline.next, hx] using hn .reader)
    (by simp only [Pipeline.exited, Bool.or_eq_false_iff] at hx; exact hx.1.1.1) hpk hpkt
  -- so from the reader on, each thread has returned after its null
  have t1 : Terminated s.pktQ.sent := by
    rcases hl.reader.outs with ⟨⟨-, hne⟩, -⟩ | ⟨-, ht⟩
    exacts [absurd hrd hne, ht]
  obtain ⟨hsrc, t2⟩ := hsrc t1
  obtain ⟨henc', t3⟩ := hencd t2
  obtain ⟨hfov, t4⟩ := hfov t3
  exact ⟨hrd, hsrc, henc', hfov, t1, t2, t3, t4, hpkt, hfrm, henc, hlag, hout⟩

/-- Where no worker has a step, each worker's step is `none`. -/
theorem stuck_of_not_step (hm : ¬ ∃ w s', s.next cfg w = some s') (w : Worker) :
    s.next cfg w = none :=
  Option.eq_none_iff_forall_not_mem.mpr fun s' h => hm ⟨w, s', h⟩

/-- Deadlock freedom: a state where no worker can step is the finished pipeline. -/
theorem Inv.progress {pkts : List AVPacket} (hc : cfg.Obeys fl₁ fl₂ fl₃)
    (hfile : cfg.file = pkts.map .ok ++ [.error .eof]) (hpk : 0 < pktCap) (hfr : 0 < frmCap)
    (hi : s.Inv cfg) : s.Done ∨ ∃ w s', s.next cfg w = some s' := by
  by_cases hm : ∃ w s', s.next cfg w = some s'
  · exact .inr hm
  · exact .inl (hi.done_of_stuck hc hpk hfr (hi.exited hc hfile) (stuck_of_not_step hm))

/-- Termination: every interleaving ends with the pipeline finished. -/
theorem inevitably_done {pkts : List AVPacket} (hc : cfg.Obeys fl₁ fl₂ fl₃)
    (hfile : cfg.file = pkts.map .ok ++ [.error .eof]) (hf : cfg.Finite p₁ p₂ p₃)
    (hpk : 0 < pktCap) (hfr : 0 < frmCap) :
    Inevitably (Pipeline.next cfg) Done (init cfg : Pipeline σ₁ σ₂ σ₃ pktCap frmCap) :=
  inevitably_of_rank rankLt_wf (rank p₁ p₂ p₃) (fun s _ _ (hi : s.Inv cfg) h => hi.next h)
    (fun _ _ _ _ h => rank_next hc hf h) (fun _ hi => hi.progress hc hfile hpk hfr) inv_init

/-- The sentinel protocol of the data path. For any container and any codecs that obey the
facade, in every interleaving each of `pkt_q`, `frm_q`, `enc_pkt_q` and `out_frm_q` holds
non-null items, then at most one null; no step appends to it after its null, and no stage
extracts from its input after taking the null. On packets ending in `AVERROR_EOF`, with codecs
that return finitely many outputs per input and room in `pkt_q` and `frm_q`, every
interleaving moreover ends with each thread returned and each of the four queues ended by its
null and drained, and nothing steps after that. Without the bound on the codecs' outputs, no
interleaving deadlocks: on packets ending in `AVERROR_EOF`, with room in `pkt_q` and `frm_q`,
a reachable state where no worker can step is that finished state. -/
theorem sentinel_protocol (hc : cfg.Obeys fl₁ fl₂ fl₃) :
    (∀ s : Pipeline σ₁ σ₂ σ₃ pktCap frmCap, Reachable (Pipeline.next cfg) (init cfg) s →
      NullLast s.pktQ.sent ∧ NullLast s.frmQ.sent ∧ NullLast s.encPktQ.sent ∧
        NullLast s.outFrmQ.sent) ∧
    (∀ (s s' : Pipeline σ₁ σ₂ σ₃ pktCap frmCap) (w : Worker),
      Reachable (Pipeline.next cfg) (init cfg) s → s.next cfg w = some s' → Closed s s') ∧
    (∀ (pkts : List AVPacket) (p₁ : σ₁ → ℕ) (p₂ : σ₂ → ℕ) (p₃ : σ₃ → ℕ),
      cfg.file = pkts.map .ok ++ [.error .eof] → cfg.Finite p₁ p₂ p₃ → 0 < pktCap → 0 < frmCap →
      Inevitably (Pipeline.next cfg) Done (init cfg : Pipeline σ₁ σ₂ σ₃ pktCap frmCap)) ∧
    (∀ s : Pipeline σ₁ σ₂ σ₃ pktCap frmCap, s.Done → ∀ w, s.next cfg w = none) ∧
    (∀ (pkts : List AVPacket) (s : Pipeline σ₁ σ₂ σ₃ pktCap frmCap),
      cfg.file = pkts.map .ok ++ [.error .eof] → 0 < pktCap → 0 < frmCap →
      Reachable (Pipeline.next cfg) (init cfg) s → (∀ w, s.next cfg w = none) → s.Done) :=
  ⟨fun _ h => ((Inv.of_reachable h).local hc).nullLast,
    fun _ _ _ h hs => (Inv.of_reachable h).closed hc hs,
    fun _ _ _ _ hfile hf hpk hfr => inevitably_done hc hfile hf hpk hfr,
    fun _ hd w => hd.next_eq_none w,
    fun _ _ hfile hpk hfr h hn =>
      (Inv.of_reachable h).done_of_stuck hc hpk hfr ((Inv.of_reachable h).exited hc hfile) hn⟩

end Pipeline

/-- A decoder that turns each packet into one blank frame at once. -/
def blankDecoder : Codec (DelayState AVPacket) AVPacket AVFrame :=
  Codec.delay 0 fun _ => ⟨[], 0, []⟩

/-- One video packet through zero-latency codecs, with the capacity 32 of `main.c`. -/
def onePacket (encoder : Codec (DelayState AVFrame) AVFrame AVPacket) :
    Config (DelayState AVPacket) (DelayState AVFrame) (DelayState AVPacket) where
  file := [.ok ⟨some [0], 0⟩, .error .eof]
  streamIndex := 0
  source := blankDecoder
  sourceCtx := ⟨[], false⟩
  encoder := encoder
  encoderCtx := ⟨[], false⟩
  fov := blankDecoder
  fovCtx := ⟨[], false⟩
  wc _ := ⟨320, 240, 640, 480⟩
  clock n := n

theorem onePacket_obeys (d : ℕ) :
    (onePacket (Codec.delay d fun _ => ⟨some [], 0⟩)).Obeys (fun s => s.flushed = true)
      (fun s => s.flushed = true) (fun s => s.flushed = true) :=
  ⟨Codec.delay_obeys 0 _, Codec.delay_obeys d _, Codec.delay_obeys 0 _, Bool.false_ne_true,
    Bool.false_ne_true, Bool.false_ne_true⟩

theorem sentinel_protocol_onePacket :
    (onePacket packetize).Obeys (fun s => s.flushed = true) (fun s => s.flushed = true)
      (fun s => s.flushed = true) ∧
    Inevitably (Pipeline.next (onePacket packetize)) Pipeline.Done
      (Pipeline.init (onePacket packetize) : Pipeline _ _ _ 32 32) :=
  ⟨onePacket_obeys 0, (Pipeline.sentinel_protocol (onePacket_obeys 0)).2.2.1 [⟨some [0], 0⟩]
    _ _ _ rfl ⟨Codec.delay_finite 0 _, Codec.delay_finite 0 _, Codec.delay_finite 0 _⟩
    (by decide) (by decide)⟩

end FFoveated
