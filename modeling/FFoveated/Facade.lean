import Mathlib.Logic.Basic

/-!
# The libav facade

The threads of `main.c` and `codec.c` reach libavformat and libavcodec through a few calls.
This file fixes what the model knows of them: the `AVERROR` codes the source compares
against, the packet and frame fields the threads read or write, and a codec context as a
state machine behind `avcodec_send_*` and `avcodec_receive_*`.

## Main definitions

- `AVRet` — the negative results the source tells apart.
- `AVPacket`, `AVFrame`, `AVFrameSideData` — the fields the threads touch.
- `Codec` — a codec context: `receive` and `send`, each with the context's next state.
- `Codec.Obeys` — the facade contract, read through a ghost predicate `flushed`.
- `Codec.Finite` — finitely many outputs per input, as a ranking `pending`.
- `supplyCheck` — how `supply_packet` and `supply_frame` treat the result of a submission.
- `Codec.delay` — a codec that holds up to `d` inputs and drains them in order.
-/

namespace FFoveated

/-- The negative results of libav calls that the source names; `other` is every code it
does not compare against. -/
inductive AVRet
  | eagain
  | eof
  | einval
  | enomem
  | other
  deriving DecidableEq, Repr

/-- The fields of an `AVPacket` the threads read: `buf` is null or a reference to the payload,
`streamIndex` the stream the packet belongs to. -/
structure AVPacket where
  buf : Option (List UInt8)
  streamIndex : Int
  deriving DecidableEq, Repr

/-- The foveation descriptor `float[4]`: gaze point, spread and quality offset. -/
structure Descriptor where
  fx : Float
  fy : Float
  sigma : Float
  offset : Float
  deriving Repr

/-- The side data types of the foveated FFmpeg fork; only the descriptor is named here. -/
inductive AVFrameSideDataType
  | foveationDescriptor
  | other (tag : Nat)
  deriving DecidableEq, Repr

/-- One entry of a frame's side data: its type, its declared `size` and its payload. -/
structure AVFrameSideData where
  type : AVFrameSideDataType
  size : Nat
  data : Descriptor
  deriving Repr

/-- The fields of an `AVFrame` the threads touch. -/
structure AVFrame where
  data : List UInt8
  pictType : Nat
  sideData : List AVFrameSideData
  deriving Repr

/-- A codec context seen through the facade. `receive` is `avcodec_receive_frame` or
`avcodec_receive_packet`; `send` is `avcodec_send_packet` or `avcodec_send_frame`, where
`none` is the null submission that starts draining. Both return the next state. -/
structure Codec (σ α β : Type) where
  receive : σ → Except AVRet β × σ
  send : σ → Option α → Except AVRet Unit × σ

/-- A call of a thread on its codec, with the result it got. `open` is `avcodec_open2`
done inside the thread, as `open_decoder` of `main.c` does. -/
inductive CodecCall (α β : Type)
  | open
  | send (x : Option α) (r : Except AVRet Unit)
  | receive (r : Except AVRet β)

/-- How `supply_packet` and `supply_frame` treat the result of a submission: the `pexit`
message for each of the four codes they name, `none` to go on. The messages for `EAGAIN` and
`EOF` name the caller. -/
def supplyCheck (eagainMsg eofMsg : String) : Except AVRet Unit → Option String
  | .error .eagain => some eagainMsg
  | .error .eof => some eofMsg
  | .error .einval => some "codec invalid, not open or requires flushing"
  | .error .enomem => some "memory allocation failed"
  | .error .other | .ok () => none

/-- A submission goes on exactly when it was accepted or failed with a code the check does
not name. -/
theorem supplyCheck_eq_none_iff {eagainMsg eofMsg : String} {r : Except AVRet Unit} :
    supplyCheck eagainMsg eofMsg r = none ↔ r = .ok () ∨ r = .error .other := by
  rcases r with (_ | _ | _ | _ | _) | ⟨⟩ <;> simp [supplyCheck]

namespace Codec

variable {σ α β : Type} (c : Codec σ α β)

/-- The next submission is accepted, whatever it is. -/
def Accepts (s : σ) : Prop := ∀ x, (c.send s x).1 = .ok ()

/-- The facade contract. `flushed s` is a ghost reading of the state: a null has been
submitted. It must start false and follow the submissions; `receive` answers only OK,
NEED_INPUT or END_OF_STREAM, NEED_INPUT only when the next submission is accepted and never
after a null one, END_OF_STREAM only after a null one. -/
structure Obeys (flushed : σ → Prop) : Prop where
  receive_error : ∀ s e, (c.receive s).1 = .error e → e = .eagain ∨ e = .eof
  eagain : ∀ s, (c.receive s).1 = .error .eagain → c.Accepts (c.receive s).2 ∧ ¬ flushed s
  eof : ∀ s, (c.receive s).1 = .error .eof → flushed s
  receive_flushed : ∀ s, flushed (c.receive s).2 ↔ flushed s
  send_none : ∀ s, (c.send s none).1 = .ok () → flushed (c.send s none).2
  send_some : ∀ s x, (c.send s (some x)).1 = .ok () →
    (flushed (c.send s (some x)).2 ↔ flushed s)

/-- Finitely many outputs per input: every OK from `receive` lowers `pending`, and no other
answer raises it. A submission may raise it by any amount. -/
structure Finite (pending : σ → ℕ) : Prop where
  receive_ok : ∀ s y, (c.receive s).1 = .ok y → pending (c.receive s).2 < pending s
  receive_error : ∀ s e, (c.receive s).1 = .error e → pending (c.receive s).2 ≤ pending s

variable {c} {flushed : σ → Prop}

theorem Obeys.receive_cases (h : c.Obeys flushed) (s : σ) :
    (∃ y, (c.receive s).1 = .ok y) ∨ (c.receive s).1 = .error .eagain ∨
      (c.receive s).1 = .error .eof := by
  rcases hr : (c.receive s).1 with e | y
  · rcases h.receive_error s e hr with rfl | rfl <;> simp
  · exact .inl ⟨y, rfl⟩

end Codec

/-- A codec whose every `receive` fails with `ENOMEM`; it accepts every submission. -/
def Codec.noMemory (α β : Type) : Codec Unit α β where
  receive _ := (.error .enomem, ())
  send _ _ := (.ok (), ())

/-- The state of `Codec.delay`: the inputs it holds, oldest first, and whether a null was
submitted. -/
structure DelayState (α : Type) where
  held : List α
  flushed : Bool
  deriving DecidableEq, Repr

/-- A codec that turns each input into one output by `conv`, in order, and holds up to `d`
inputs before it answers; after the null submission it returns what it holds, then
END_OF_STREAM. `delay 0` is a zero-latency codec. -/
def Codec.delay {α β : Type} (d : ℕ) (conv : α → β) : Codec (DelayState α) α β where
  receive s := match s.held with
    | x :: rest =>
      if d < s.held.length ∨ s.flushed then (.ok (conv x), { s with held := rest })
      else (.error .eagain, s)
    | [] => if s.flushed then (.error .eof, s) else (.error .eagain, s)
  send s
    | some x => (.ok (), { s with held := s.held ++ [x] })
    | none => (.ok (), { s with flushed := true })

namespace Codec

variable {α β : Type} (d : ℕ) (conv : α → β)

theorem delay_accepts (s : DelayState α) : (delay d conv).Accepts s := by
  rintro (_ | _) <;> rfl

/-- The three answers of `delay`: an output when it holds more than `d` inputs or drains,
NEED_INPUT while it may still hold, END_OF_STREAM once drained and empty. -/
theorem delay_receive_cases (s : DelayState α) :
    (∃ x rest, s.held = x :: rest ∧ (d < s.held.length ∨ s.flushed = true) ∧
      (delay d conv).receive s = (.ok (conv x), { s with held := rest })) ∨
    (s.flushed = false ∧ s.held.length ≤ d ∧ (delay d conv).receive s = (.error .eagain, s)) ∨
    (s.held = [] ∧ s.flushed = true ∧ (delay d conv).receive s = (.error .eof, s)) := by
  rcases s with ⟨_ | ⟨x, rest⟩, _ | _⟩
  · simp [delay]
  · simp [delay]
  · by_cases hd : d < rest.length + 1 <;> simp [delay, hd]
    omega
  · simp [delay]

theorem delay_obeys : (delay d conv).Obeys (fun s => s.flushed = true) where
  receive_error s e h := by
    rcases delay_receive_cases d conv s with ⟨x, rest, -, -, hr⟩ | ⟨-, -, hr⟩ | ⟨-, -, hr⟩ <;>
      simp_all
  eagain s h := by
    refine ⟨delay_accepts d conv _, ?_⟩
    rcases delay_receive_cases d conv s with ⟨x, rest, -, -, hr⟩ | ⟨hf, -, hr⟩ | ⟨-, -, hr⟩ <;>
      simp_all
  eof s h := by
    rcases delay_receive_cases d conv s with ⟨x, rest, -, -, hr⟩ | ⟨-, -, hr⟩ | ⟨-, hf, hr⟩ <;>
      simp_all
  receive_flushed s := by
    rcases delay_receive_cases d conv s with ⟨x, rest, -, -, hr⟩ | ⟨-, -, hr⟩ | ⟨-, -, hr⟩ <;>
      simp [hr]
  send_none s _ := rfl
  send_some s x _ := Iff.rfl

theorem delay_finite : (delay d conv).Finite (fun s => s.held.length) where
  receive_ok s y h := by
    rcases delay_receive_cases d conv s with ⟨x, rest, hs, -, hr⟩ | ⟨-, -, hr⟩ | ⟨-, -, hr⟩ <;>
      simp_all
  receive_error s e h := by
    rcases delay_receive_cases d conv s with ⟨x, rest, hs, -, hr⟩ | ⟨-, -, hr⟩ | ⟨-, -, hr⟩ <;>
      simp_all

end Codec

end FFoveated
