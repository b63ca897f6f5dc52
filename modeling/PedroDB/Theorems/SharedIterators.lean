import PedroDB.DBImpl
import PedroDB.Lib.Sharing
import PedroDB.Reference
import PedroDB.SharedBuffer

/-!
# The iterators of a thread

All iterators of a thread fetch into one buffer, and one that comes near the end of its file
decodes what is left there. That is never a header, as long as the two lengths of the headers that
are decoded do not overflow, and so no iterator sees anything of the others.

## Main definitions

* `RecordIterator.call` — a call of an iterator, and what it answers
* `RecordIterator.calls`, `thread` — the iterators of a thread and their buffer

## Main results

* `RecordIterator.indifferent_calls` — what is left in the buffer makes no difference
* `RecordIterator.trace_filter_calls` — each iterator answers as if it were alone
-/

namespace PedroDB.RecordIterator

open Sharing

/-- A call of an iterator. -/
inductive Call
  | seek (offset : UInt32)
  | valid
  | next
  | close
  deriving DecidableEq

/-- What a call answers: for `Valid` also the record, as it stands in the buffer when `Valid`
returns. The views that `Next` returns are the same ones. -/
inductive Answer
  | done
  | invalid
  | valid (record : Entry)
  deriving DecidableEq

section

variable [Platform] {ι : Type*}

/-- A call, on a file and a buffer that other iterators use as well. -/
def call (S : Storage) (file : ReadableFile) (it : RecordIterator) (buffer : ReadBuffer) :
    Call → Answer × RecordIterator × ReadBuffer
  | .seek offset => (.done, (it.seek offset.toNat).1, buffer.reset)
  | .valid =>
    match it.validInto S file.data buffer with
    | (true, it, buffer) => (.valid it.entry, it, buffer)
    | (false, it, buffer) => (.invalid, it, buffer)
  | .next => (.done, it.next.2, buffer)
  | .close => (.done, it, buffer.reset)

/-- The calls of the iterators of a thread. -/
def calls (S : Storage) (files : ι → ReadableFile) :
    Calls ι RecordIterator ReadBuffer Call Answer :=
  fun i it buffer c => it.call S (files i) buffer c

/-- The header that a call decodes, if it decodes one, has lengths whose sum fits in 32 bits. -/
def NarrowCall (files : ι → ReadableFile) (i : ι) (it : RecordIterator) (c : Call) : Prop :=
  c = .valid → Narrow (files i).data it

instance (files : ι → ReadableFile) (i : ι) (it : RecordIterator) (c : Call) :
    Decidable (NarrowCall files i it c) :=
  inferInstanceAs (Decidable (c = .valid → it.index < it.size →
    it.readIndex + Header.sizeOf < it.size → (files i).data it.readIndex ≠ 0 →
      (Header.stored (files i).data it.readIndex).bodySize < 2 ^ 32))

/-- The iterators of a thread, all of them just constructed, and their buffer. The constructor
does not touch the buffer, so one that comes later only makes its first call later. -/
def thread (files : ι → ReadableFile) (buffer : ReadBuffer) : State ι RecordIterator ReadBuffer where
  own i := create (files i).size
  resource := buffer

variable {S S' : Storage} {files : ι → ReadableFile} {file : ReadableFile} {it : RecordIterator}
  {buffer : ReadBuffer} {c : Call}

omit [Platform] in
theorem spent_reset (buffer : ReadBuffer) : Spent buffer.reset :=
  spent_of_readableBytes rfl

/-- What a call answers and how it moves on, as if there were no buffer. -/
def callAlone (file : ReadableFile) (it : RecordIterator) : Call → Answer × RecordIterator
  | .seek offset => (.done, (it.seek offset.toNat).1)
  | .valid =>
    match it.validAlone file.data with
    | (true, it) => (.valid it.entry, it)
    | (false, it) => (.invalid, it)
  | .next => (.done, it.next.2)
  | .close => (.done, it)

/-- A call does as if there were no buffer, and leaves no header in it. -/
theorem call_spec (hspent : Spent buffer) (hnarrow : c = .valid → Narrow file.data it) :
    ∃ rest, it.call S file buffer c = ((it.callAlone file c).1, (it.callAlone file c).2, rest) ∧
      Spent rest := by
  cases c with
  | seek offset => exact ⟨_, rfl, spent_reset buffer⟩
  | valid =>
    obtain ⟨rest, hvalid, hrest⟩ := validInto_spec (S := S) hspent (hnarrow rfl)
    refine ⟨rest, ?_, hrest⟩
    unfold call callAlone
    rw [hvalid]
    rcases it.validAlone file.data with ⟨_ | _, it'⟩
    · rfl
    · rfl
  | next => exact ⟨buffer, rfl, hspent⟩
  | close => exact ⟨_, rfl, spent_reset buffer⟩

/-- As long as no header can be decoded from it, what is left in the buffer makes no
difference. -/
theorem indifferent_calls (S S' : Storage) (files : ι → ReadableFile) :
    Indifferent (calls S files) (calls S' files) (NarrowCall files) Spent := by
  apply Indifferent.of_alone fun i => callAlone (files i)
  · intro i it buffer c hspent hnarrow
    exact call_spec hspent hnarrow
  · intro i it buffer c hspent hnarrow
    exact call_spec hspent hnarrow

variable [DecidableEq ι]

/-- The calls of any iterators in any order: each iterator answers as if it were alone on its
thread, with a buffer of its own. -/
theorem trace_filter_calls (S S' : Storage) (files : ι → ReadableFile) (buffer buffer' : ReadBuffer)
    (cs : List (ι × Call))
    (hnarrow : Guarded (calls S files) (NarrowCall files) (thread files buffer.reset) cs) (i : ι) :
    (trace (calls S files) (thread files buffer.reset) cs).filter (fun answer => answer.1 = i) =
      trace (calls S' files) (thread files buffer'.reset) (cs.filter fun c => c.1 = i) :=
  (indifferent_calls S S' files).trace_filter rfl (spent_reset buffer) (spent_reset buffer') hnarrow

/-- Where no header of the files overflows, none is decoded that does. -/
theorem guarded_of_headers {s : State ι RecordIterator ReadBuffer} {cs : List (ι × Call)}
    (h : ∀ i o, (Header.stored (files i).data o).bodySize < 2 ^ 32) :
    Guarded (calls S files) (NarrowCall files) s cs := by
  intro pre c post t hcs hrun hvalid hindex hroom htype
  exact h c.1 (t.own c.1).readIndex

end

/-! ### Two files -/

open scoped Reference

/-- A record for a small key and value. -/
def smallRecord : Entry := DBImpl.entryOf Reference.options (.put [107] [118])

/-- One file ends fourteen bytes behind its only record, and the other one is empty. -/
def twoFiles (i : Bool) : ReadableFile :=
  if i then { data := Padded.ofList 0 smallRecord.pack, size := 30 }
  else { data := fun _ => 0, size := 15 }

/-- The iterator over the empty file leaves a whole header behind. -/
def twoCalls : List (Bool × Call) :=
  [(true, .valid), (true, .next), (false, .valid), (true, .valid), (false, .close)]

/-- Near the end of its file the other iterator decodes that header, and finds no record, as it
does alone. -/
theorem trace_filter_calls_two :
    trace (calls Storage.clear twoFiles) (thread twoFiles ReadBuffer.empty.reset)
      [(true, .valid), (true, .next), (true, .valid)] =
        [(true, .valid smallRecord), (true, .done), (true, .invalid)] ∧
    (trace (calls Storage.keep twoFiles) (thread twoFiles ReadBuffer.empty.reset)
      twoCalls).filter (fun answer => answer.1 = true) =
        [(true, .valid smallRecord), (true, .done), (true, .invalid)] := by
  have hnarrow : Guarded (calls Storage.keep twoFiles) (NarrowCall twoFiles)
      (thread twoFiles ReadBuffer.empty.reset) twoCalls :=
    Transition.meets_of_check (by decide)
  have halone : trace (calls Storage.clear twoFiles) (thread twoFiles ReadBuffer.empty.reset)
      [(true, .valid), (true, .next), (true, .valid)] =
        [(true, .valid smallRecord), (true, .done), (true, .invalid)] := by decide
  constructor
  · exact halone
  · rw [trace_filter_calls Storage.keep Storage.clear twoFiles _ ReadBuffer.empty twoCalls hnarrow]
    exact halone

end PedroDB.RecordIterator
