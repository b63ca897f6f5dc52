import PedroDB.Rollover

/-!
# Appending when the active file may have been removed

`Compact` may remove the active file. It stays open until `Append` rolls over, and so do the
records in it.

## Main definitions

* `FileManager.Openable`, `FileManager.read` — the files that can be opened, and their records
* `FileManager.Steady` — the files hold a log, and a roll-over loses nothing or makes a new file
* `FileManager.Retains` — files that can be opened still can, and keep their records
* `FileManager.StartedOver` — a roll-over made a new file, and the old one may be lost

## Main results

* `FileManager.openable_of_acquireDataFile` — what `AcquireDataFile` opens
* `FileManager.Steady.append_cases` — what `Append` leaves behind
-/

namespace PedroDB

open Framing

variable [Platform] {opens : OpenData} {fm fm' fm'' : FileManager} {L L' L'' : Log} {e : Entry}
  {loc : Location} {status : Status} {id : ℕ}

namespace FileManager

/-- The file can be opened: it has a path, or is the active one. -/
def Openable (fm : FileManager) (id : ℕ) : Prop :=
  (fm.dataFiles id).linked = true ∨ id = fm.activeFileId

instance (fm : FileManager) (id : ℕ) : Decidable (fm.Openable id) :=
  inferInstanceAs (Decidable (_ ∨ _))

/-- The record that a reader decodes at a location, if its file can be opened. -/
def read (loc : Location) (fm : FileManager) : Option Entry :=
  if fm.Openable loc.id then
    (Entry.unPack ((readableBuffer (fm.dataFiles loc.id)).retrieve loc.offset)).1
  else none

theorem Keeps.read_eq (h : fm.Keeps L) (hloc : Located L loc e) (hopen : fm.Openable loc.id) :
    fm.read loc = some e := by
  rw [read, if_pos hopen, (h.files loc.id).unPack_eq hloc]

/-- A removed file loses its path only. -/
theorem Keeps.removeFile (h : fm.Keeps L) (id : ℕ) : (fm.removeFile id).Keeps L where
  files j :=
    ⟨removeFile_data.1.trans (h.files j).data, (h.files j).fits, (h.files j).storable⟩
  data := by
    rw [removeFile_eq]
    exact h.data
  log := rfl
  write := by
    have hwrite : fm.activeOffset = totalSize (L fm.activeFileId) := h.write
    change ((fm.removeFile id).dataFiles (fm.removeFile id).activeFileId).writeIndex =
      totalSize (L (fm.removeFile id).activeFileId)
    rw [removeFile_data.2, removeFile_activeFileId]
    exact hwrite

theorem linked_removeFile {j : ℕ} : ((fm.removeFile id).dataFiles j).linked = true ↔
    j ≠ id ∧ (fm.dataFiles j).linked = true := by
  rw [removeFile_eq]
  by_cases hj : j = id
  · simp [hj]
  · simp [hj]

/-- The location that `Append` returns if the record fits. -/
theorem Keeps.located_add (h : fm.Keeps L) :
    Located (L.add fm.activeFileId e) ⟨fm.activeFileId, fm.activeOffset⟩ e := by
  have hloc : (⟨fm.activeFileId, fm.activeOffset⟩ : Location) = L.endOf fm.activeFileId :=
    congrArg (Location.mk fm.activeFileId) h.write
  rw [hloc]
  exact located_endOf L fm.activeFileId e

/-- A record that fits is appended to the active file. -/
theorem Keeps.append_of_fits (opens : OpenData) (h : fm.Keeps L) (hs : e.Storable)
    (hfits : fm.Fits e) :
    ∃ logs, fm.append opens e = some (.kOk, ⟨fm.activeFileId, fm.activeOffset⟩,
      { FileManager.addRecord fm.activeFileId e fm with indexLogs := logs }) := by
  rcases h.allocatePack_cases hs with ⟨-, logs, hallocate⟩ | ⟨hfull, -⟩
  · refine ⟨logs, ?_⟩
    rw [append, appendLoop, hallocate]
  · exact absurd hfits hfull

omit [Platform] in
/-- Only files with a path, files that are held open, and the active one are opened. -/
theorem openable_of_acquireDataFile
    (hopened : ∀ j, (j, ()) ∈ fm.openFiles.entries → (fm.dataFiles j).linked = true)
    (h : (fm.acquireDataFile id).1 = .kOk) : fm.Openable id := by
  unfold acquireDataFile at h
  split_ifs at h with hactive
  · exact Or.inr hactive
  · rcases hget : fm.openFiles.get id with ⟨_ | u, o⟩
    · simp only [hget] at h
      split_ifs at h with hlinked
      exact Or.inl hlinked
    · exact Or.inl (hopened id (LRUCache.get_mem (by rw [hget])))

/-- The files hold the records of the log. If the active file was removed, a roll-over finds no
records in the next one, as long as the file numbers do not start again. -/
structure Steady (fm : FileManager) (L : Log) : Prop where
  keeps : fm.Keeps L
  next : (fm.dataFiles fm.activeFileId).linked = true ∨
    ((fm.dataFiles (u32 (fm.activeFileId + 1))).linked = true → L (u32 (fm.activeFileId + 1)) = [])

/-- Files that can be opened still can, and keep their records. -/
structure Retains (fm : FileManager) (L : Log) (fm' : FileManager) (L' : Log) : Prop where
  grows : ∀ j, fm.Openable j → fm'.Openable j ∧ ∃ xs, L' j = L j ++ xs
  linked : ∀ j, (fm.dataFiles j).linked = true → (fm'.dataFiles j).linked = true
  files : fm.metadata.files ⊆ fm'.metadata.files

namespace Retains

omit [Platform]

theorem refl (fm : FileManager) (L : Log) : fm.Retains L fm L :=
  ⟨fun _ h => ⟨h, [], (List.append_nil _).symm⟩, fun _ h => h, Finset.Subset.refl _⟩

theorem trans (h : fm.Retains L fm' L') (h' : fm'.Retains L' fm'' L'') :
    fm.Retains L fm'' L'' where
  grows := by
    intro j hj
    obtain ⟨hj', xs, hxs⟩ := h.grows j hj
    obtain ⟨hj'', ys, hys⟩ := h'.grows j hj'
    exact ⟨hj'', xs ++ ys, by rw [hys, hxs, List.append_assoc]⟩
  linked j hj := h'.linked j (h.linked j hj)
  files := h.files.trans h'.files

/-- A record that can be read stays where it is. -/
theorem located (h : fm.Retains L fm' L') (hopen : fm.Openable loc.id) (hloc : Located L loc e) :
    fm'.Openable loc.id ∧ Located L' loc e := by
  obtain ⟨hopen', xs, hxs⟩ := h.grows loc.id hopen
  refine ⟨hopen', ?_⟩
  rw [Located, hxs]
  exact At.append hloc xs

/-- As long as the active file has a path, every file that can be opened has one. -/
theorem of_preserves (h : fm.Preserves L fm' L')
    (hactive : (fm.dataFiles fm.activeFileId).linked = true) : fm.Retains L fm' L' where
  grows := by
    intro j hj
    have hlinked : (fm.dataFiles j).linked = true := hj.elim id fun hj => hj ▸ hactive
    exact ⟨Or.inl (h.linked j hlinked), h.grows j hlinked⟩
  linked := h.linked
  files := h.files

end Retains

/-- `Append` has made a new active file for the record. What was in the old one may be lost,
the other files are as they were. -/
structure StartedOver (fm : FileManager) (L : Log) (e : Entry) (loc : Location)
    (fm' : FileManager) (L' : Log) : Prop where
  keeps : fm'.Keeps L'
  located : Located L' loc e
  used : totalSize (L' fm'.activeFileId) = e.size
  others : ∀ j, fm.Openable j → L j ≠ [] → j ≠ fm'.activeFileId ∧ L' j = L j

omit [Platform] in
theorem u32_succ_ne (n : ℕ) : u32 (n + 1) ≠ n := by
  unfold u32
  omega

namespace Steady

/-- A record appended to the active file. -/
theorem addRecord (h : fm.Steady L) (hs : e.Storable) (hfits : fm.Fits e) (logs : ℕ → Bytes) :
    let fm' := { FileManager.addRecord fm.activeFileId e fm with indexLogs := logs }
    fm'.Steady (L.add fm.activeFileId e) ∧ fm.Retains L fm' (L.add fm.activeFileId e) ∧
      Located (L.add fm.activeFileId e) ⟨fm.activeFileId, fm.activeOffset⟩ e := by
  have hlinked : ∀ j, ((FileManager.addRecord fm.activeFileId e fm).dataFiles j).linked =
      (fm.dataFiles j).linked := by
    intro j
    by_cases hj : j = fm.activeFileId
    · rw [hj]
      simp only [FileManager.addRecord, Function.update_self]
    · simp only [FileManager.addRecord, Function.update_of_ne hj]
  refine ⟨⟨h.keeps.addRecord hs hfits logs, ?_⟩, ⟨?_, ?_, Finset.Subset.refl _⟩, ?_⟩
  · have hsame : L.add fm.activeFileId e (u32 (fm.activeFileId + 1)) =
        L (u32 (fm.activeFileId + 1)) := Function.update_of_ne (u32_succ_ne fm.activeFileId) ..
    dsimp only
    rw [hlinked, hlinked]
    exact h.next.imp_right fun hnext hl => hsame.trans (hnext hl)
  · intro j hj
    refine ⟨hj.imp_left fun hj => (hlinked j).trans hj, Log.add_grows j⟩
  · exact fun j hj => (hlinked j).trans hj
  · exact h.keeps.located_add

theorem scheduleSeal (h : fm.Steady L) :
    fm.scheduleSeal.Steady L ∧ fm.Retains L fm.scheduleSeal L := by
  obtain ⟨hfiles, hmetadata, -, hid⟩ := scheduleSeal_fields fm
  refine ⟨⟨h.keeps.scheduleSeal, ?_⟩, ⟨fun j hj => ⟨?_, [], (List.append_nil _).symm⟩, ?_, ?_⟩⟩
  · rw [hfiles, hid]
    exact h.next
  · rw [Openable, hfiles, hid]
    exact hj
  · rw [hfiles]
    exact fun _ hj => hj
  · rw [hmetadata]

/-- A roll-over into a file without records. -/
theorem openActive_new (h : fm.Keeps L) (hnext : (fm.dataFiles id).linked = true → L id = []) :
    (openActive id fm).Keeps (Function.update L id []) := by
  refine (openActive_laid (fun j hj => ?_) ?_).keeps
  · rw [Function.update_of_ne hj]
    exact h.files j
  · rw [opened, Function.update_self]
    split_ifs with hlinked
    · exact hnext hlinked ▸ h.files id
    · exact absent_holds

/-- What `Append` leaves behind when the next file holds nothing. -/
private theorem append_cases_new (h : fm.Steady L) (hs : e.Storable)
    (hnext : (fm.dataFiles (u32 (fm.activeFileId + 1))).linked = true →
      L (u32 (fm.activeFileId + 1)) = [])
    (happend : fm.append opens e = some (status, loc, fm')) :
    (∃ L', fm'.Steady L' ∧ fm.Retains L fm' L' ∧
      (status = .kOk → Located L' loc e ∧ fm'.Openable loc.id)) ∨
      status = .kOk ∧ ∃ L', fm.StartedOver L e loc fm' L' := by
  obtain ⟨n, hn⟩ : ∃ n, 2 ^ 32 + 1 = n + 1 + 1 := ⟨2 ^ 32 - 1, rfl⟩
  rw [append, hn, appendLoop] at happend
  rcases h.keeps.allocatePack_cases hs with ⟨hfits, logs, hallocate⟩ | ⟨hfits, hallocate⟩
  · -- The record fits into the active file.
    simp only [hallocate, Option.some.injEq, Prod.mk.injEq] at happend
    obtain ⟨rfl, rfl, rfl⟩ := happend
    obtain ⟨hsteady, hretains, hloc⟩ := h.addRecord hs hfits logs
    exact Or.inl ⟨_, hsteady, hretains, fun _ => ⟨hloc, Or.inr rfl⟩⟩
  · have hroll : rollOver opens fm.capture fm =
        createFile opens (u32 (fm.activeFileId + 1)) fm := if_neg (by simp [capture])
    simp only [hallocate, hroll] at happend
    by_cases hopen : opens (u32 (fm.activeFileId + 1)) = .kOk
    · -- The new file takes the record.
      obtain ⟨hfiles, -, -, -⟩ := scheduleSeal_fields fm
      have hcreate : createFile opens (u32 (fm.activeFileId + 1)) fm =
          (.kOk, openActive (u32 (fm.activeFileId + 1)) fm.scheduleSeal) := by
        rw [createFile, hopen]
      have hkeeps := openActive_new h.scheduleSeal.1.keeps (hfiles ▸ hnext)
      have hused : totalSize (Function.update L (u32 (fm.activeFileId + 1)) []
          (u32 (fm.activeFileId + 1))) = 0 := by
        rw [Function.update_self]
        rfl
      have hroom : (openActive (u32 (fm.activeFileId + 1)) fm.scheduleSeal).Fits e := by
        have hwrite : (openActive (u32 (fm.activeFileId + 1)) fm.scheduleSeal).activeOffset = 0 :=
          hkeeps.write.trans hused
        rw [Fits, hwrite, Nat.zero_add]
        exact hs.size
      rcases hkeeps.allocatePack_cases hs with ⟨-, logs, hallocate'⟩ | ⟨hfull, -⟩
      · simp only [hcreate, appendLoop, hallocate', Option.some.injEq, Prod.mk.injEq] at happend
        obtain ⟨rfl, rfl, rfl⟩ := happend
        refine Or.inr ⟨rfl, _, hkeeps.addRecord hs hroom logs, ?_, ?_, fun j hj hrec => ?_⟩
        · exact hkeeps.located_add
        · change totalSize (Log.add _ (u32 (fm.activeFileId + 1)) e (u32 (fm.activeFileId + 1))) = _
          rw [Log.add, Function.update_self, totalSize_concat, hused, Nat.zero_add]
        · have hne : j ≠ u32 (fm.activeFileId + 1) := by
            intro hj'
            rcases hj with hj | hj
            · rw [hj'] at hj hrec
              exact hrec (hnext hj)
            · exact u32_succ_ne fm.activeFileId (hj'.symm.trans hj)
          refine ⟨hne, ?_⟩
          change Log.add _ (u32 (fm.activeFileId + 1)) e j = _
          rw [Log.add, Function.update_of_ne hne, Function.update_of_ne hne]
      · exact absurd hroom hfull
    · -- The new file does not open, and nothing has changed.
      have hcreate : createFile opens (u32 (fm.activeFileId + 1)) fm =
          (opens (u32 (fm.activeFileId + 1)), fm.scheduleSeal) := by
        unfold createFile
        split
        · next hok => exact absurd hok hopen
        · rfl
      rw [hcreate] at happend
      split at happend
      · next hok => exact absurd (congrArg Prod.fst hok) hopen
      · next st fm₁ hne heq =>
        simp only [Option.some.injEq, Prod.mk.injEq] at happend
        obtain ⟨rfl, -, rfl⟩ := happend
        obtain rfl := congrArg Prod.snd heq
        exact Or.inl ⟨L, h.scheduleSeal.1, h.scheduleSeal.2, fun hok => absurd hok hne⟩

/-- What `Append` leaves behind. -/
theorem append_cases (h : fm.Steady L) (hs : e.Storable)
    (happend : fm.append opens e = some (status, loc, fm')) :
    (∃ L', fm'.Steady L' ∧ fm.Retains L fm' L' ∧
      (status = .kOk → Located L' loc e ∧ fm'.Openable loc.id)) ∨
      status = .kOk ∧ ∃ L', fm.StartedOver L e loc fm' L' := by
  rcases h.next with hactive | hnext
  · obtain ⟨L', hkeeps, hpreserves, hlinked, hok⟩ := h.keeps.append_cases hs hactive happend
    exact Or.inl ⟨L', ⟨hkeeps, Or.inl hlinked⟩, .of_preserves hpreserves hactive,
      fun h => ⟨(hok h).1, Or.inl (hok h).2⟩⟩
  · exact h.append_cases_new hs hnext happend

end Steady

end FileManager

end PedroDB
