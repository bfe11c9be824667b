import FFoveated.Queue

/-!
# `reader_thread`

The demultiplexer of `main.c`: it reads the container with `av_read_frame`, releases packets
without a buffer or from another stream with `av_packet_free`, enqueues the rest, and on
`AVERROR_EOF` enqueues the null and closes the input; on any other error it calls `pexit`.
The `malloc` of each packet is taken to succeed.

## Main definitions

- `avReadFrame` — `av_read_frame` on a container given by its remaining read results.
- `ReaderPc`, `readerThread` — `reader_thread` as a stage.
- `ReaderPc.Inv` — what the reader has appended, given the container it reads.

## Main results

- `readerThread_preserves` — the invariant is kept by every step.
- `readerThread_filters` — on packets ending in `AVERROR_EOF` the reader enqueues exactly the
  kept packets in read order, then one null, releases each other packet once, right after
  reading it, and this is its only run.
- `readerThread_history_done` — so a reader that has returned has filled its queue with them.
- `readerThread_history_error` — on an error other than `AVERROR_EOF` the reader never returns,
  and when it calls `pexit` its queue holds the kept packets before the error and no null.
-/

namespace FFoveated

/-- `av_read_frame` on a container whose remaining read results are `file`: the next one, or
`AVERROR_EOF` past the end. -/
def avReadFrame :
    List (Except AVRet AVPacket) → Except AVRet AVPacket × List (Except AVRet AVPacket)
  | [] => (.error .eof, [])
  | r :: file => (r, file)

/-- A call of `reader_thread` into libavformat, with its result. -/
inductive ReaderCall
  | readFrame (r : Except AVRet AVPacket)
  | packetFree (pkt : AVPacket)
  | closeInput

/-- Where `reader_thread` is: at `av_read_frame` with the container's remaining results, about
to enqueue a packet, about to release a dropped packet, about to enqueue the final null, about
to close the input, returned, or stopped by `pexit`. -/
inductive ReaderPc
  | read (file : List (Except AVRet AVPacket))
  | append (pkt : AVPacket) (file : List (Except AVRet AVPacket))
  | drop (pkt : AVPacket) (file : List (Except AVRet AVPacket))
  | flush
  | close
  | done
  | exit (msg : String)

/-- Where the loop goes on the result `r` of `av_read_frame`: `EOF` breaks out, any other
error exits, a packet without a buffer or from another stream is released. -/
def ReaderPc.afterRead (streamIndex : Int) (r : Except AVRet AVPacket)
    (file : List (Except AVRet AVPacket)) : ReaderPc :=
  match r with
  | .error .eof => .flush
  | .error _ => .exit "av_read_frame failed"
  | .ok pkt =>
    if pkt.buf = none ∨ pkt.streamIndex ≠ streamIndex then .drop pkt file else .append pkt file

/-- The thread has called `pexit`. -/
def ReaderPc.isExit : ReaderPc → Bool
  | .exit _ => true
  | _ => false

/-- `reader_thread` of `main.c`, keeping the stream `streamIndex` chosen by `reader_init`. It
takes nothing from any queue. -/
def readerThread (streamIndex : Int) : ReaderPc → Act ReaderPc Empty (Option AVPacket) ReaderCall
  | .read file =>
    .call (.readFrame (avReadFrame file).1)
      (.afterRead streamIndex (avReadFrame file).1 (avReadFrame file).2)
  | .append pkt file => .put (some pkt) (.read file)
  | .drop pkt file => .call (.packetFree pkt) (.read file)
  | .flush => .put none .close
  | .close => .call .closeInput .done
  | .done | .exit _ => .halt

/-- A reader that still acts has not called `pexit`. -/
theorem ReaderPc.isExit_of_ne_halt {streamIndex : Int} {l : ReaderPc}
    (h : readerThread streamIndex l ≠ .halt) : l.isExit = false := by
  cases l <;> simp_all [readerThread, ReaderPc.isExit]

/-- The packets the reader keeps: those with a buffer, from the selected stream. -/
def keeps (streamIndex : Int) (pkt : AVPacket) : Bool :=
  decide (pkt.buf ≠ none ∧ pkt.streamIndex = streamIndex)

theorem ReaderPc.afterRead_ok (streamIndex : Int) (pkt : AVPacket)
    (file : List (Except AVRet AVPacket)) :
    ReaderPc.afterRead streamIndex (.ok pkt) file =
      if keeps streamIndex pkt then .append pkt file else .drop pkt file := by
  simp only [afterRead, keeps]
  split_ifs <;> simp_all

/-- A container read to its `AVERROR_EOF` after the packets `pre`. -/
def EndsAfter (file₀ : List (Except AVRet AVPacket)) (pre : List AVPacket) : Prop :=
  file₀ = pre.map .ok ∨ ∃ rest, file₀ = pre.map .ok ++ .error .eof :: rest

/-- The reader's invariant for the container `file₀`: it has read the packets `pre`, has
appended exactly those it keeps, in order, and the null only after `AVERROR_EOF`. -/
def ReaderPc.Inv (streamIndex : Int) (file₀ : List (Except AVRet AVPacket)) :
    ReaderPc → List Empty → List (Option AVPacket) → Prop
  | .read file, _, outs => ∃ pre : List AVPacket,
    file₀ = pre.map .ok ++ file ∧ outs = (pre.filter (keeps streamIndex)).map some
  | .append pkt file, _, outs => ∃ pre : List AVPacket,
    file₀ = pre.map .ok ++ .ok pkt :: file ∧ keeps streamIndex pkt ∧
      outs = (pre.filter (keeps streamIndex)).map some
  | .drop pkt file, _, outs => ∃ pre : List AVPacket,
    file₀ = pre.map .ok ++ .ok pkt :: file ∧ keeps streamIndex pkt = false ∧
      outs = (pre.filter (keeps streamIndex)).map some
  | .flush, _, outs => ∃ pre : List AVPacket,
    EndsAfter file₀ pre ∧ outs = (pre.filter (keeps streamIndex)).map some
  | .close, _, outs | .done, _, outs => ∃ pre : List AVPacket,
    EndsAfter file₀ pre ∧ outs = (pre.filter (keeps streamIndex)).map some ++ [none]
  | .exit _, _, outs => Unterminated outs

theorem ReaderPc.inv_start (streamIndex : Int) (file₀ : List (Except AVRet AVPacket)) :
    (ReaderPc.read file₀).Inv streamIndex file₀ [] [] :=
  ⟨[], rfl, rfl⟩

theorem readerThread_preserves (streamIndex : Int) (file₀ : List (Except AVRet AVPacket)) :
    Preserves (readerThread streamIndex) (ReaderPc.Inv streamIndex file₀) where
  call {l l' _ ins outs} h hi := by
    cases l with
    | read file =>
      simp only [readerThread, Act.call.injEq] at h
      obtain ⟨-, rfl⟩ := h
      obtain ⟨pre, rfl, rfl⟩ := hi
      rcases file with _ | ⟨(e | pkt), file⟩
      · exact ⟨pre, .inl (by simp), rfl⟩
      · cases e
        case eof => exact ⟨pre, .inr ⟨file, rfl⟩, rfl⟩
        all_goals exact ⟨(pre.filter (keeps streamIndex)), by simp⟩
      · simp only [avReadFrame, ReaderPc.afterRead_ok]
        split
        next hk => exact ⟨pre, rfl, hk, rfl⟩
        next hk => exact ⟨pre, rfl, by simpa using hk, rfl⟩
    | drop pkt file =>
      simp only [readerThread, Act.call.injEq] at h
      obtain ⟨-, rfl⟩ := h
      obtain ⟨pre, rfl, hk, rfl⟩ := hi
      exact ⟨pre ++ [pkt], by simp, by simp [List.filter_append, hk]⟩
    | close =>
      simp only [readerThread, Act.call.injEq] at h
      obtain ⟨-, rfl⟩ := h
      exact hi
    | append | flush | done | exit => simp [readerThread] at h
  put {l l' _ ins outs} h hi := by
    cases l with
    | append pkt file =>
      simp only [readerThread, Act.put.injEq] at h
      obtain ⟨rfl, rfl⟩ := h
      obtain ⟨pre, rfl, hk, rfl⟩ := hi
      exact ⟨pre ++ [pkt], by simp, by simp [List.filter_append, hk]⟩
    | flush =>
      simp only [readerThread, Act.put.injEq] at h
      obtain ⟨rfl, rfl⟩ := h
      obtain ⟨pre, he, rfl⟩ := hi
      exact ⟨pre, he, rfl⟩
    | read | drop | close | done | exit => simp [readerThread] at h
  take {l _ _ _ _} h := by cases l <;> simp [readerThread] at h

/-- The reader's appends carry no null until it flushes, and end with the null afterwards. -/
theorem ReaderPc.Inv.outs {streamIndex : Int} {file₀ : List (Except AVRet AVPacket)}
    {l : ReaderPc} {ins : List Empty} {outs : List (Option AVPacket)}
    (hi : l.Inv streamIndex file₀ ins outs) :
    ((l ≠ .close ∧ l ≠ .done) ∧ Unterminated outs) ∨
      ((l = .close ∨ l = .done) ∧ Terminated outs) := by
  cases l with
  | read | flush =>
    obtain ⟨pre, -, h⟩ := hi
    exact .inl ⟨by simp, _, h⟩
  | append | drop =>
    obtain ⟨pre, -, -, h⟩ := hi
    exact .inl ⟨by simp, _, h⟩
  | close | done =>
    obtain ⟨pre, -, h⟩ := hi
    exact .inr ⟨by simp, _, h⟩
  | exit => exact .inl ⟨by simp, by simpa only [ReaderPc.Inv] using hi⟩

/-! ## The run on a container -/

/-- The library calls of the reader on one packet `pkt` it reads: the read, then the release
of `pkt` unless the reader keeps it. -/
def readCalls (streamIndex : Int) (pkt : AVPacket) : List ReaderCall :=
  .readFrame (.ok pkt) :: if keeps streamIndex pkt then [] else [.packetFree pkt]

/-- On a container that yields the packets `pkts` first, the reader reads each, appends those
it keeps and releases the others, in order. -/
theorem readerThread_run_packets (streamIndex : Int) (pkts : List AVPacket)
    (file : List (Except AVRet AVPacket)) :
    ∃ tr, Runs (readerThread streamIndex) (.read (pkts.map .ok ++ file)) tr (.read file) ∧
      Event.puts tr = (pkts.filter (keeps streamIndex)).map some ∧
      Event.calls tr = pkts.flatMap (readCalls streamIndex) := by
  induction pkts with
  | nil => exact ⟨[], .refl _, rfl, rfl⟩
  | cons pkt pkts ih =>
    obtain ⟨tr, hr, hp, hc⟩ := ih
    have h : readerThread streamIndex (.read ((pkt :: pkts).map .ok ++ file)) =
        .call (.readFrame (.ok pkt))
          (if keeps streamIndex pkt then .append pkt (pkts.map .ok ++ file)
            else .drop pkt (pkts.map .ok ++ file)) := by
      simp only [readerThread, List.map_cons, List.cons_append, avReadFrame, ReaderPc.afterRead_ok]
    by_cases hk : keeps streamIndex pkt
    · rw [if_pos hk] at h
      exact ⟨_, .call h (.put rfl hr), by simp [hp, hk], by simp [hc, readCalls, hk]⟩
    · rw [if_neg hk] at h
      exact ⟨_, .call h (.call rfl hr), by simp [hp, hk], by simp [hc, readCalls, hk]⟩

/-- On a container that yields the packets `pkts`, then `AVERROR_EOF`, then anything, the
reader appends the packets it keeps, then the null, releases the others, closes the input and
returns. -/
theorem readerThread_run_eof (streamIndex : Int) (pkts : List AVPacket)
    (after : List (Except AVRet AVPacket)) :
    ∃ tr, Runs (readerThread streamIndex) (.read (pkts.map .ok ++ .error .eof :: after)) tr .done ∧
      Event.puts tr = (pkts.filter (keeps streamIndex)).map some ++ [none] ∧
      Event.calls tr =
        pkts.flatMap (readCalls streamIndex) ++ [.readFrame (.error .eof), .closeInput] := by
  obtain ⟨tr, hr, hp, hc⟩ := readerThread_run_packets streamIndex pkts (.error .eof :: after)
  have hend : Runs (readerThread streamIndex) (.read (.error .eof :: after))
      [.call (.readFrame (.error .eof)), .put none, .call .closeInput] .done :=
    .call rfl (.put rfl (.call rfl (.refl _)))
  exact ⟨_, hr.trans hend, by simp [hp], by simp [hc]⟩

/-- The reader takes nothing, so every run of it agrees with a run to a halt. -/
theorem readerThread_resume {streamIndex : Int} {file : List (Except AVRet AVPacket)}
    {full tr : List (Event Empty (Option AVPacket) ReaderCall)} {l lh : ReaderPc}
    (hfull : Runs (readerThread streamIndex) (.read file) full lh)
    (hh : readerThread streamIndex lh = .halt)
    (h : Runs (readerThread streamIndex) (.read file) tr l) :
    ∃ more, full = tr ++ more ∧ Runs (readerThread streamIndex) l more lh :=
  have ht : Event.takes tr <+: Event.takes full ++ [] := by
    rw [eq_nil_of_empty (Event.takes tr)]
    exact List.nil_prefix
  hfull.resume hh h ht

/-- On packets, then `AVERROR_EOF`, the reader never calls `pexit`. -/
theorem readerThread_isExit {streamIndex : Int} {pkts : List AVPacket}
    {after : List (Except AVRet AVPacket)} {tr : List (Event Empty (Option AVPacket) ReaderCall)}
    {l : ReaderPc}
    (h : Runs (readerThread streamIndex) (.read (pkts.map .ok ++ .error .eof :: after)) tr l) :
    l.isExit = false := by
  obtain ⟨full, hfull, -, -⟩ := readerThread_run_eof streamIndex pkts after
  obtain ⟨more, -, hm⟩ := readerThread_resume hfull rfl h
  cases l with
  | exit => cases (Runs.of_halt rfl hm).2
  | _ => rfl

/-- A reader that has returned on packets, then `AVERROR_EOF`, has appended exactly the
packets it keeps and the null. -/
theorem readerThread_history_done {streamIndex : Int} {pkts : List AVPacket}
    {after : List (Except AVRet AVPacket)} {n : ℕ} {q : Queue (Option AVPacket) n}
    (h : History (readerThread streamIndex) Queue.Holds
      (.read (pkts.map .ok ++ .error .eof :: after)) .done [] q) :
    q.sent = (pkts.filter (keeps streamIndex)).map some ++ [none] := by
  obtain ⟨tr, hr, -, ho⟩ := h
  obtain ⟨full, hfull, hp, -⟩ := readerThread_run_eof streamIndex pkts after
  obtain ⟨more, rfl, hm⟩ := readerThread_resume hfull rfl hr
  obtain ⟨rfl, -⟩ := Runs.of_halt rfl hm
  rw [← hp, List.append_nil]
  exact ho

/-- On a container that yields the packets `pkts`, then an error other than `AVERROR_EOF`, the
reader appends the packets it keeps and calls `pexit`. -/
theorem readerThread_run_error (streamIndex : Int) (pkts : List AVPacket) {e : AVRet}
    (he : e ≠ .eof) (after : List (Except AVRet AVPacket)) :
    ∃ tr, Runs (readerThread streamIndex) (.read (pkts.map .ok ++ .error e :: after)) tr
      (.exit "av_read_frame failed") ∧
      Event.puts tr = (pkts.filter (keeps streamIndex)).map some := by
  obtain ⟨tr, hr, hp, -⟩ := readerThread_run_packets streamIndex pkts (.error e :: after)
  have h : readerThread streamIndex (.read (.error e :: after)) =
      .call (.readFrame (.error e)) (.exit "av_read_frame failed") := by
    cases e <;> simp_all [readerThread, avReadFrame, ReaderPc.afterRead]
  exact ⟨_, hr.trans (.single_call h), by simp [hp]⟩

/-- A reader on packets, then an error other than `AVERROR_EOF`, never returns; once it has
called `pexit`, it has done so on that error, after appending exactly the packets it keeps and
no null. -/
theorem readerThread_history_error {streamIndex : Int} {pkts : List AVPacket} {e : AVRet}
    (he : e ≠ .eof) {after : List (Except AVRet AVPacket)} {n : ℕ} {l : ReaderPc}
    {q : Queue (Option AVPacket) n}
    (h : History (readerThread streamIndex) Queue.Holds (.read (pkts.map .ok ++ .error e :: after))
      l [] q) :
    l ≠ .done ∧ (l.isExit = true →
      l = .exit "av_read_frame failed" ∧ q.sent = (pkts.filter (keeps streamIndex)).map some) := by
  obtain ⟨tr, hr, -, ho⟩ := h
  obtain ⟨full, hfull, hp⟩ := readerThread_run_error streamIndex pkts he after
  obtain ⟨more, rfl, hm⟩ := readerThread_resume hfull rfl hr
  refine ⟨fun hl => ?_, fun hx => ?_⟩
  · subst hl
    cases (Runs.of_halt rfl hm).2
  · cases l with
    | exit =>
      obtain ⟨rfl, hl⟩ := Runs.of_halt rfl hm
      rw [← hp, List.append_nil]
      exact ⟨hl.symm, ho⟩
    | _ => cases hx

/-- The reader's filter. On a container that yields the packets `pkts`, then `AVERROR_EOF`,
then anything, `reader_thread` enqueues exactly the packets it keeps (a buffer, the selected
stream), each once and in read order, then one null; every other packet it releases with
`av_packet_free` right after reading it, once, and never enqueues. It reads up to the `EOF`,
closes the input and returns, and every run of it is a prefix of this one. -/
theorem readerThread_filters (streamIndex : Int) (pkts : List AVPacket)
    (after : List (Except AVRet AVPacket)) :
    ∃ tr, Runs (readerThread streamIndex) (.read (pkts.map .ok ++ .error .eof :: after)) tr .done ∧
      Event.puts tr = (pkts.filter (keeps streamIndex)).map some ++ [none] ∧
      Event.calls tr =
        (pkts.flatMap fun pkt =>
          .readFrame (.ok pkt) :: if keeps streamIndex pkt then [] else [.packetFree pkt]) ++
          [.readFrame (.error .eof), .closeInput] ∧
      ∀ tr' l,
        Runs (readerThread streamIndex) (.read (pkts.map .ok ++ .error .eof :: after)) tr' l →
        tr' <+: tr := by
  obtain ⟨tr, hr, hp, hc⟩ := readerThread_run_eof streamIndex pkts after
  refine ⟨tr, hr, hp, hc, fun tr' l h => ?_⟩
  obtain ⟨more, he, -⟩ := readerThread_resume hr rfl h
  exact ⟨more, he.symm⟩

end FFoveated
