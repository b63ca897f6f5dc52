import PedroDB.Reference
import PedroDB.Session

/-!
# Live records and the active file stay registered

`UpdateUnused` queues any file with enough dead bytes, also the one that `Append` is
writing to, and `Compact` removes the file it was called for. So the active file can be
removed; and a record that ends exactly at the end of its file is not seen by the scan
and is lost with its file.

## Main definitions

* `Session.Kept` — the active file and the files of all live records are registered

## Main results

* `Session.forall_kept_iff` — all states of a run are so exactly if every file removed
  is sealed and has no live record at its very end
* `Session.exists_not_kept` — two writes and one `Compact()` remove the active file
-/

namespace PedroDB.Session

open Transition

/-- The active file is registered, and so is the file of every live record. -/
def Kept (s : Session) : Prop :=
  s.db.fileManager.activeFileId ∈ s.db.fileManager.metadata.files ∧
    ∀ key dir, s.db.find key = some dir → dir.loc.id ∈ s.db.fileManager.metadata.files

section

variable [Platform] {opt : Options} {name : Bytes} {as : List Action} {s s' : Session}
  {a : Action} {L L' : Log}

theorem Inv.kept (h : Inv opt s L) : s.Kept := ⟨h.sound.registered.active, h.sound.kept⟩

/-- If a removal does not meet the condition, the state after it is not kept. -/
theorem Effect.removal_of_kept (he : Effect opt s L a s' L') (hkept : s'.Kept) :
    Removal s a := by
  cases he with
  | @finish id hc =>
    have hfiles : (s.db.compactFinish id).fileManager.metadata.files =
        s.db.fileManager.metadata.files.erase id := FileManager.removeFile_files
    have hactive : (s.db.compactFinish id).fileManager.activeFileId =
        s.db.fileManager.activeFileId := FileManager.removeFile_activeFileId
    simp only [Removal, hc]
    obtain ⟨hmem, hlive⟩ := hkept
    simp only [hfiles, hactive, Finset.mem_erase] at hmem hlive
    refine ⟨Ne.symm hmem.1, ?_⟩
    rintro ⟨key, dir, hfind, hid, -⟩
    exact (hlive key dir hfind).1 hid
  | read hreading =>
    simp only [Removal]
    split
    · next hc =>
      rw [hc] at hreading
      exact hreading.elim
    · trivial
  | append hc => simp [Removal, hc]
  | install hc => simp [Removal, hc]
  | _ => trivial

/-- The active file and the files of all live records stay registered all along a run
exactly if every file that the run removes is sealed and no live record ends exactly at
its end. -/
theorem forall_kept_iff (hwithin : Guarded opt (Within opt) name as)
    (hreach : Reaches opt name as s) :
    (∀ bs t, bs <+: as → Reaches opt name bs t → Kept t) ↔ Guarded opt Removal name as := by
  obtain ⟨s₀, hs₀, hrun⟩ := hreach
  have hiff := hrun.forall_prefix_iff_meets (P := Kept) (I := fun s => ∃ L, Inv opt s L)
    (g := Removal) (hwithin s₀ hs₀) ⟨⟨_, Inv.fresh hs₀⟩, (Inv.fresh hs₀).kept⟩ ?_ ?_
  · constructor
    · intro h s₁ hs₁
      obtain rfl : s₀ = s₁ := Option.some_inj.mp (hs₀.symm.trans hs₁)
      exact hiff.mp fun bs u hle hu => h bs u hle ⟨s₀, hs₀, hu⟩
    · rintro h bs t hle ⟨s₁, hs₁, ht⟩
      obtain rfl : s₀ = s₁ := Option.some_inj.mp (hs₀.symm.trans hs₁)
      exact hiff.mpr (h s₀ hs₀) bs t hle ht
  · rintro t a u ⟨L, hinv⟩ - hkept hw hstep
    obtain ⟨L', he⟩ := hinv.effect hw hstep
    exact ⟨L', hinv.step he (he.removal_of_kept hkept)⟩
  · rintro t a u ⟨L, hinv⟩ - hw hstep
    obtain ⟨L', he⟩ := hinv.effect hw hstep
    exact ⟨he.removal_of_kept, fun hr => (hinv.step he hr).kept⟩

end

open scoped Reference

/-- A key is put and deleted, which queues the active file; `Compact()` scans its two
records, finds neither live, and removes it. -/
def removeActive : List Action :=
  [.write (.put [107] [118]), .write (.delete [107]), .compact] ++ List.replicate 8 .block

/-- The condition, on the same run before the file is removed. -/
theorem forall_kept_iff_removeActive :
    (∀ bs t, bs <+: removeActive.take 10 → Reaches Reference.options [] bs t → Kept t) ↔
      Guarded Reference.options Removal [] (removeActive.take 10) := by
  obtain ⟨s₀, hs₀, -⟩ := exists_fresh Reference.options []
  have hsome : ((fresh Reference.options []).bind fun s =>
      (removeActive.take 10).foldlM (step Reference.options) s).isSome := by decide +kernel
  rw [hs₀] at hsome
  obtain ⟨s, hs⟩ := Option.isSome_iff_exists.mp hsome
  exact forall_kept_iff (guarded_of_check (by decide +kernel)) ⟨s₀, hs₀, hs⟩

/-- The file that `Append` is writing to can be removed. -/
theorem exists_not_kept : ¬ ∀ opt name as s, Reaches opt name as s → Kept s := by
  intro hall
  obtain ⟨s₀, hs₀, -⟩ := exists_fresh Reference.options []
  have hrun : (((fresh Reference.options []).bind fun s =>
      removeActive.foldlM (step Reference.options) s).map fun s =>
        decide (s.db.fileManager.activeFileId ∈ s.db.fileManager.metadata.files)) =
          some false := by decide +kernel
  rw [hs₀] at hrun
  obtain ⟨s, hs, hfalse⟩ := Option.map_eq_some_iff.mp hrun
  exact of_decide_eq_false hfalse (hall Reference.options [] removeActive s ⟨s₀, hs₀, hs⟩).1

end PedroDB.Session
