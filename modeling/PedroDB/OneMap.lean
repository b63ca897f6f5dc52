import PedroDB.Crash
import PedroDB.Lib.Simulation
import PedroDB.SegmentDB

/-!
# One map

What the client of a database is answered, and what it would be answered by a map in place of
the database.

## Main definitions

* `Session.reply`, `Session.system` — the answers of a database to its client
* `KeyMap.after`, `KeyMap.reply`, `KeyMap.system` — a map in its place

## Main results

* `DBImpl.Sound.updateIndex_status_eq`, `DBImpl.Sound.replyTo_updateIndex` — an index update
  does what the map does
* `Session.written_accepted_concat` — the accepted writes leave what they leave of the map
-/

namespace PedroDB

open Transition

variable [Platform] (opt : Options)

namespace KeyMap

omit [Platform] in
/-- What a map answers tells what it has. -/
theorem eq_of_get_eq {m m' : KeyMap} {key : Key} (h : m.get key = m'.get key) :
    m key = m' key := by
  unfold get at h
  cases hm : m key <;> cases hm' : m' key <;> simp_all

omit [Platform] in
@[simp] theorem put_snd {m : KeyMap} {key : Key} {value : Bytes} : (m.put key value).2 =
    Function.update m key (if value = [] then none else some value) := by
  unfold put
  split_ifs <;> rfl

/-- What a fate leaves of a map. A crash within a write may leave it done. -/
def after (m : KeyMap) : Session.Fate → KeyMap
  | .act (.write w) =>
    if kMaxFileBytes < (DBImpl.entryOf opt w).sizeOf then m else (m.put w.key w.value).2
  | .crash (.appended w) => (m.put w.key w.value).2
  | _ => m

/-- What a map answers. A record that fits no data file is refused. -/
def reply (m : KeyMap) : Session.Fate → Option Reply
  | .act (.write w) =>
    if kMaxFileBytes < (DBImpl.entryOf opt w).sizeOf then some ⟨.kNotSupported, none⟩
    else some ⟨(m.put w.key w.value).1, none⟩
  | .act (.get _ key) => some (m.get key)
  | _ => none

/-- A map in place of the database. -/
def system : System KeyMap Session.Fate Reply where
  step m f := some (m.after opt f)
  reply m f := m.reply opt f

end KeyMap

namespace DBImpl.Sound

variable {opt} {db : DBImpl} {L : Log} {m : KeyMap} {w : Write} {loc : Location}

/-- The index has the keys of the map. -/
theorem find_eq_none_iff (h : db.Sound L)
    (hreply : ∀ key, replyTo opt (db.recordOf key) = m.get key) (key : Key) :
    db.find key = none ↔ m key = none := by
  have hreply := hreply key
  constructor
  · intro hfind
    rw [recordOf_of_none hfind] at hreply
    cases hm : m key with
    | none => rfl
    | some value =>
      rw [KeyMap.get, hm] at hreply
      cases hreply
  · intro hm
    rw [KeyMap.get, hm] at hreply
    have hnone := replyTo_eq_kNotFound (by rw [hreply])
    rw [← Option.not_isSome_iff_eq_none, ← h.recordOf_isSome, hnone]
    simp

/-- An index update reports what the map does. -/
theorem updateIndex_status_eq (h : db.Sound L)
    (hreply : ∀ key, replyTo opt (db.recordOf key) = m.get key) :
    (DBImpl.updateIndex opt w loc db).1 = (m.put w.key w.value).1 := by
  have hfind := h.find_eq_none_iff hreply w.key
  rw [updateIndex_status, KeyMap.put]
  by_cases hvalue : w.value = []
  · simp only [hvalue, true_and, if_true, KeyMap.delete]
    exact if_congr hfind rfl rfl
  · simp only [hvalue, false_and, if_false]

/-- And it leaves what the map has then. -/
theorem replyTo_updateIndex (h : db.Sound L)
    (hreply : ∀ key, replyTo opt (db.recordOf key) = m.get key)
    (hloc : Located L loc (entryOf opt w)) (hfile : loc.id ∈ db.fileManager.metadata.files)
    (key : Key) : replyTo opt ((DBImpl.updateIndex opt w loc db).2.recordOf key) =
      (m.put w.key w.value).2.get key := by
  rw [h.recordOf_updateIndex hloc hfile, KeyMap.get, KeyMap.put_snd, Function.update_apply]
  split_ifs with hkey hvalue
  · rfl
  · exact replyOf_entryOf
  · exact hreply key

/-- A database stands for a map. -/
theorem exists_map (h : db.Sound L) (hwritten : L.Written opt) :
    ∃ m : KeyMap, ∀ key, replyTo opt (db.recordOf key) = m.get key := by
  have hkey : ∀ key, ∃ v : Option Bytes, replyTo opt (db.recordOf key) =
      KeyMap.get (fun _ => v) key := by
    intro key
    rcases hfind : db.find key with _ | dir
    · exact ⟨none, by rw [recordOf_of_none hfind]; rfl⟩
    · obtain ⟨w, hloc, -⟩ := h.live_entry hwritten hfind
      exact ⟨some w.value, by rw [h.recordOf_eq hfind hloc]; exact replyOf_entryOf⟩
  choose m hm using hkey
  exact ⟨m, hm⟩

end DBImpl.Sound

namespace Session

/-- What the client is answered; `none` if it called nothing. -/
def reply (s : Session) : Fate → Option Reply
  | .act (.write w) => (s.db.handlePut opt .sound w).map fun (status, _) => ⟨status, none⟩
  | .act (.get use_read_cache key) =>
    (s.db.handleGet opt use_read_cache key s.buffer).map fun (reply, _) => reply
  | _ => none

/-- The database and the process that it runs in, as the client sees them. -/
def system (name : Bytes) : System Session Fate Reply where
  step := fateStep opt name
  reply := reply opt

variable {opt} {fs : List Fate} {f : Fate}

theorem accepted_concat : accepted opt (fs ++ [f]) = accepted opt fs ++ accepted opt [f] :=
  List.filterMap_append

/-- The accepted writes leave what they leave of the map. -/
theorem written_accepted_concat : written (accepted opt (fs ++ [f])) =
    KeyMap.after opt (written (accepted opt fs)) f := by
  have hput : ∀ w : Write, written (accepted opt fs ++ [.write w]) =
      (KeyMap.put (written (accepted opt fs)) w.key w.value).2 := by
    intro w
    funext key
    rw [written_write, KeyMap.put_snd, Function.update_apply]
  rw [accepted_concat]
  match f with
  | .act (.write w) =>
    rw [accepted_write, KeyMap.after]
    split_ifs
    · rw [List.append_nil]
    · exact hput w
  | .crash (.appended w) => exact hput w
  | .act (.get ..) | .act .compact | .act .block | .act (.task _) | .crash .between
  | .crash .rolledOver => exact congrArg written (List.append_nil _)

end Session
end PedroDB
