import PedroDB.SegmentFates
import PedroDB.Theorems.Crashes

/-!
# A database in place of one map

Call after call, the client of a `SegmentDB` is answered what one map would answer: the status
of each `Put` and `Delete`, and the status and value of each `Get`, through the read cache and
without it. Compactions and tasks are not seen, and a crash is seen only by what it does to the
call that it cuts off.

## Main definitions

* `Session.Settled` — the condition on the reads through the cache
* `Session.Stands` — a database stands for a map
* `SegmentDB.Happening.fate` — what happens, to a database without segments
* `SegmentDB.system` — a segmented database as its client sees it

## Main results

* `Session.simulates` — one `DBImpl` answers as a map does
* `SegmentDB.simulates_oneMap` — maps that keys are routed to answer as one
* `SegmentDB.replies_eq` — all answers of a run
-/

namespace PedroDB

open Transition

namespace Session

variable [Platform] {opt : Options} {name : Bytes} {s s' : Session} {m : KeyMap} {f : Fate}

/-- A read through the cache touches no block of the active file that is not yet full. -/
def Settled (opt : Options) (s : Session) : Fate → Prop
  | .act a => SettledRead opt s a
  | .crash _ => True

instance (s : Session) : (f : Fate) → Decidable (Settled opt s f)
  | .act a => inferInstanceAs (Decidable (SettledRead opt s a))
  | .crash _ => .isTrue trivial

/-- The database stands for a map: what it would answer is what the map answers. -/
structure Stands (opt : Options) (name : Bytes) (s : Session) (m : KeyMap) : Prop where
  durable : ∃ L, Durable opt name s L
  cached : s.db.fileManager.CacheOk s.db.readCache
  tombstoned : s.db.Tombstoned
  replies : ∀ key, DBImpl.replyTo opt (s.db.recordOf key) = m.get key

namespace Stands

theorem fresh (h : Session.fresh opt name = some s) : Stands opt name s fun _ => none := by
  have hdb := (fresh_db h).1
  refine ⟨⟨_, Durable.fresh h⟩, hdb ▸ newDb_cacheOk, Durable.tombstoned_fresh h, fun key => ?_⟩
  rw [DBImpl.recordOf_of_none]
  · rfl
  · rw [hdb]
    rfl

theorem step (h : Stands opt name s m) (hname : name.length < 2 ^ 16) (hroomy : Roomy opt s f)
    (hreleases : Releases s f) (hsettled : Settled opt s f)
    (hstep : fateStep opt name s f = some s') : Stands opt name s' (m.after opt f) := by
  obtain ⟨L, hd⟩ := h.durable
  cases f with
  | act a =>
    obtain ⟨L', he, hd'⟩ := hd.step hroomy hstep
    exact ⟨⟨L', hd'⟩, he.cacheOk hd.inv h.cached hsettled,
      (hd.tombstoned_step hd' he h.tombstoned).mpr hreleases,
      hd.replyTo_step hd' hroomy.1 he h.replies⟩
  | crash d =>
    obtain ⟨L', hd', htomb', hcache', hreply'⟩ := hd.crash_step hname hroomy hstep
    exact ⟨⟨L', hd'⟩, hcache', htomb', hreply' m h.tombstoned h.replies⟩

/-- A write reports what the map does. -/
theorem handlePut_eq (h : Stands opt name s m) {w : Write}
    (hroomy : Roomy opt s (.act (.write w))) : ∃ db, s.db.handlePut opt .sound w =
      some (if kMaxFileBytes < (DBImpl.entryOf opt w).sizeOf then .kNotSupported
        else (m.put w.key w.value).1, db) := by
  obtain ⟨L, hd⟩ := h.durable
  obtain ⟨⟨hrep, hwrap⟩, -⟩ := hroomy
  have hsizeOf : (DBImpl.entryOf opt w).sizeOf = (DBImpl.entryOf opt w).size :=
    u32_of_lt hrep.size
  rw [hsizeOf]
  rcases Nat.lt_or_ge kMaxFileBytes (DBImpl.entryOf opt w).size with hbig | hsize
  · exact ⟨s.db, by rw [if_pos hbig, hd.inv.sound.handlePut_refused hrep hbig]⟩
  · have hs := DBImpl.entryOf_storable hrep.key hsize
    have hsound := hd.inv.sound.appended hs (hwrap hsize)
    rw [if_neg (Nat.not_lt.mpr hsize)]
    refine ⟨_, (hd.inv.sound.handlePut_eq hs (hwrap hsize)).trans
      (congrArg some (Prod.ext (hsound.updateIndex_status_eq fun key => ?_) rfl))⟩
    rw [← h.replies key]
    exact congrArg _ (hd.inv.sound.recordOf_eq_of_find hsound rfl (fun _ _ hx => hx.add _ _) key)

/-- A `Get` reports what the map has, however it reads. -/
theorem handleGet_eq (h : Stands opt name s m) {use_read_cache : Bool} {key : Key}
    (hsettled : SettledRead opt s (.get use_read_cache key)) :
    ∃ db buffer, s.db.handleGet opt use_read_cache key s.buffer = some (m.get key, db, buffer) := by
  obtain ⟨L, hd⟩ := h.durable
  rw [← h.replies key]
  rcases hfind : s.db.find key with _ | dir
  · exact ⟨s.db, s.buffer, by rw [DBImpl.handleGet_none hfind, DBImpl.recordOf_of_none hfind]; rfl⟩
  · obtain ⟨w, hloc, -, -, hsize, -⟩ := hd.inv.sound.live_entry hd.inv.written hfind
    obtain ⟨db, buffer, heq, -⟩ := hd.inv.sound.handleGet_some opt use_read_cache s.buffer h.cached
      hfind hloc hsize (settled_of_settledRead hsettled hfind (hd.inv.sound.id_le_active hfind))
    -- The record ends before its file does.
    have hhidden : s.db.hiddenRead opt use_read_cache key = false := by
      have hend := hloc.end_le.trans_lt (hd.room dir.loc.id)
      simp [DBImpl.hiddenRead, hfind, hsize, hend.ne]
    rw [hhidden] at heq
    exact ⟨db, buffer, by rw [heq, hd.inv.sound.recordOf_eq hfind hloc]; rfl⟩

theorem reply_eq (h : Stands opt name s m) (hroomy : Roomy opt s f) (hsettled : Settled opt s f) :
    s.reply opt f = m.reply opt f := by
  match f with
  | .act (.write w) =>
    obtain ⟨db, heq⟩ := h.handlePut_eq hroomy
    rw [reply, heq, Option.map_some, KeyMap.reply]
    split_ifs <;> rfl
  | .act (.get use_read_cache key) =>
    obtain ⟨db, buffer, heq⟩ := h.handleGet_eq hsettled
    rw [reply, heq]
    rfl
  | .act .compact | .act .block | .act (.task _) | .crash _ => rfl

end Stands

/-- One `DBImpl` answers as a map does. -/
theorem simulates (hname : name.length < 2 ^ 16) : Simulates (system opt name) (KeyMap.system opt)
    (fun s f => Roomy opt s f ∧ Releases s f ∧ Settled opt s f) (Stands opt name) :=
  fun _ _ _ _ h ⟨hroomy, hreleases, hsettled⟩ hstep =>
    ⟨h.reply_eq hroomy hsettled, _, rfl, h.step hname hroomy hreleases hsettled hstep⟩

end Session

namespace SegmentDB

open Session

section

variable [Platform] {opt : Options} {n : ℕ} {hn : 0 < n} {hash : Key → ℕ} {path : Bytes}
  {xs : List (Happening n)} {segments segments' : Fin n → Session}

/-- What happens, to a database that has no segments. -/
def Happening.fate : Happening n → Fate
  | .write w => .act (.write w)
  | .get use_read_cache key => .act (.get use_read_cache key)
  | .compact _ => .act .compact
  | .block _ => .act .block
  | .task _ k => .act (.task k)
  | .crash _ (some w) => .crash (.appended w)
  | .crash _ none => .crash .between

variable (opt hn hash path) in
/-- The segmented database and the process that it runs in, as the client sees them. -/
def system : System (Fin n → Session) (Happening n) Reply :=
  (System.sideBySide fun i : Fin n => Session.system opt (segmentName path i)).comap
    (Happening.move hn hash)

/-- Maps that the keys are routed to answer as one map. -/
theorem simulates_oneMap :
    Simulates ((System.sideBySide fun _ : Fin n => KeyMap.system opt).comap (Happening.move hn hash))
      ((KeyMap.system opt).comap Happening.fate) (fun _ _ => True)
      fun maps m => ∀ key, m key = maps (getDB hn hash key) key := by
  rintro maps m x maps' hm - hstep
  -- A change of one key in the map of its segment.
  have hput : ∀ w : Write, ∀ key, (m.put w.key w.value).2 key = Function.update maps
      (getDB hn hash w.key) ((maps (getDB hn hash w.key)).put w.key w.value).2
      (getDB hn hash key) key := by
    intro w key
    rw [KeyMap.put_snd, KeyMap.put_snd]
    by_cases hi : getDB hn hash key = getDB hn hash w.key
    · rw [hi, Function.update_self, Function.update_apply, Function.update_apply, hm key, hi]
    · have hkey : key ≠ w.key := by
        rintro rfl
        exact hi rfl
      rw [Function.update_of_ne hi, Function.update_of_ne hkey, hm key]
  have hkeep : ∀ i key, m key = Function.update maps i (maps i) (getDB hn hash key) key := by
    intro i key
    rw [Function.update_eq_self, hm]
  cases x with
  | write w =>
    obtain rfl := Option.some_inj.mp hstep
    refine ⟨?_, _, rfl, fun key => ?_⟩
    · have hstatus : ((maps (getDB hn hash w.key)).put w.key w.value).1 =
          (m.put w.key w.value).1 := by
        rw [KeyMap.put, KeyMap.put]
        split_ifs
        · simp only [KeyMap.delete, hm w.key]
        · rfl
      show KeyMap.reply opt _ (.act (.write w)) = KeyMap.reply opt m (.act (.write w))
      rw [KeyMap.reply, KeyMap.reply, hstatus]
    · simp only [Happening.fate, KeyMap.after]
      split_ifs
      · exact hkeep _ key
      · exact hput w key
  | get use_read_cache key =>
    obtain rfl := Option.some_inj.mp hstep
    refine ⟨?_, _, rfl, hkeep _⟩
    show some (KeyMap.get _ key) = some (m.get key)
    rw [KeyMap.get, KeyMap.get, hm key]
  | crash rolled pending =>
    have hside : sideBySide (fun _ : Fin n => (KeyMap.system opt).step) maps
        ((Happening.crash rolled pending).move hn hash) = some maps' := hstep
    have hall : ∀ i, maps' i = (maps i).after opt (.crash (deathOf hn hash rolled pending i)) :=
      fun i => (Option.some_inj.mp (sideBySide_of_at (i := i) hside rfl)).symm
    cases pending with
    | none =>
      refine ⟨rfl, _, rfl, fun key => ?_⟩
      rw [hall, deathOf]
      split_ifs <;> exact hm key
    | some w =>
      refine ⟨rfl, _, rfl, fun key => (hput w key).trans ?_⟩
      simp only [hall, deathOf]
      by_cases hi : getDB hn hash w.key = getDB hn hash key
      · rw [if_pos hi, ← hi, Function.update_self]
        rfl
      · rw [if_neg hi, Function.update_of_ne (Ne.symm hi)]
        split_ifs <;> rfl
  | _ =>
    obtain rfl := Option.some_inj.mp hstep
    exact ⟨rfl, _, rfl, hkeep _⟩

/-- A segmented database answers as one map does. -/
theorem simulates (hname : ∀ i : Fin n, (segmentName path i).length < 2 ^ 16) :
    Simulates (system opt hn hash path) ((KeyMap.system opt).comap Happening.fate)
      (Guard hn hash fun s f => Roomy opt s f ∧ Releases s f ∧ Settled opt s f)
      fun segments m => ∃ maps : Fin n → KeyMap,
        (∀ i : Fin n, Stands opt (segmentName path i) (segments i) (maps i)) ∧
          ∀ key, m key = maps (getDB hn hash key) key :=
  ((Simulates.sideBySide fun i => Session.simulates (hname i)).comap (Happening.move hn hash)).trans
    simulates_oneMap

/-- Whatever the segments do in between, and whenever their process dies, all calls on a segmented
database are answered as one map answers them, if every file that a segment removes releases its
tombstones and no read caches a block that is not yet full. Each call on a segment that runs
no `Compact()` returns. -/
theorem replies_eq (hname : ∀ i : Fin n, (segmentName path i).length < 2 ^ 16)
    (hopened : openNew opt n path = some segments)
    (hroomy : Meets (step hn hash opt path) (Guard hn hash (Roomy opt)) segments xs)
    (hreleases : Meets (step hn hash opt path) (Guard hn hash Releases) segments xs)
    (hsettled : Meets (step hn hash opt path) (Guard hn hash (Settled opt)) segments xs)
    (hrun : Run (step hn hash opt path) segments xs segments') :
    (system opt hn hash path).replies segments xs =
        ((KeyMap.system opt).comap Happening.fate).replies (fun _ => none) xs ∧
      (∀ w, (segments' (getDB hn hash w.key)).Quiescent →
        Guard hn hash (Roomy opt) segments' (.write w) →
          ∃ t, step hn hash opt path segments' (.write w) = some t) ∧
      ∀ use_read_cache key, (segments' (getDB hn hash key)).Quiescent →
        Guard hn hash (Settled opt) segments' (.get use_read_cache key) →
          ∃ t, step hn hash opt path segments' (.get use_read_cache key) = some t := by
  obtain ⟨hreplies, m, -, maps, hstands, -⟩ := (simulates hname).run
    ⟨fun _ _ => none, fun i => Stands.fresh (fresh_of_openNew hopened i), fun _ => rfl⟩
    (fun pre x post t heq hpre i f hf => ⟨hroomy pre x post t heq hpre i f hf,
      hreleases pre x post t heq hpre i f hf, hsettled pre x post t heq hpre i f hf⟩) hrun
  refine ⟨hreplies, fun w hidle hg => ?_, fun use_read_cache key hidle hg => ?_⟩
  · obtain ⟨db, hput⟩ := (hstands (getDB hn hash w.key)).handlePut_eq
      (hg (getDB hn hash w.key) _ (if_pos rfl))
    refine ⟨_, Option.map_eq_some_iff.mpr ⟨{ segments' (getDB hn hash w.key) with db }, ?_, rfl⟩⟩
    show Session.step opt (segments' (getDB hn hash w.key)) (.write w) = _
    rw [Session.step, if_pos hidle, hput]
    rfl
  · obtain ⟨db, buffer, hget⟩ := (hstands (getDB hn hash key)).handleGet_eq
      (hg (getDB hn hash key) _ (if_pos rfl))
    refine ⟨_, Option.map_eq_some_iff.mpr
      ⟨{ segments' (getDB hn hash key) with db, buffer }, ?_, rfl⟩⟩
    show Session.step opt (segments' (getDB hn hash key)) (.get use_read_cache key) = _
    rw [Session.step, if_pos hidle, hget]
    rfl

end

open scoped Reference

/-- Two segments that route by the length of the key. One of them has copied a record when the
process dies in a `Put` on the other one. -/
def cutOff : List (Happening 2) :=
  [.write (.put [1] [7]), .write (.put [1, 2] [8]), .write (.put [1] [9]), .get true [1],
      .compact 1] ++ List.replicate 8 (.block 1) ++
    [.write (.delete [3, 4]), .crash (fun _ => false) (some (.put [1, 2] [])),
      .get true [1, 2], .write (.put [1] []), .get false [1], .write (.delete [1])]

theorem replies_eq_cutOff : ∃ segments : Fin 2 → Session,
    openNew Reference.options 2 [120] = some segments ∧
      (system Reference.options (by decide) List.length [120]).replies segments cutOff =
        [some ⟨.kOk, none⟩, some ⟨.kOk, none⟩, some ⟨.kOk, none⟩, some ⟨.kOk, some [9]⟩, none] ++
          List.replicate 8 none ++
          [some ⟨.kNotFound, none⟩, none, some ⟨.kNotFound, none⟩, some ⟨.kOk, none⟩,
            some ⟨.kNotFound, none⟩, some ⟨.kNotFound, none⟩] := by
  have hsome : ((openNew Reference.options 2 [120]).bind fun segments =>
      cutOff.foldlM (step (by decide) List.length Reference.options [120])
        segments).isSome := by decide +kernel
  rcases hopened : openNew Reference.options 2 [120] with _ | segments
  · rw [hopened] at hsome
    cases hsome
  rw [hopened] at hsome
  obtain ⟨segments', hrun⟩ := Option.isSome_iff_exists.mp hsome
  have hcheck : ((openNew Reference.options 2 [120]).map fun segments =>
      check (step (by decide) List.length Reference.options [120])
        (Guard (by decide) List.length fun s f => Roomy Reference.options s f ∧ Keeping s f ∧
          Settled Reference.options s f) segments cutOff).getD true = true := by decide +kernel
  rw [hopened, Option.map_some, Option.getD_some] at hcheck
  have hmeets := meets_of_check hcheck
  refine ⟨segments, rfl, (replies_eq (by decide) hopened ?_ ?_ ?_ hrun).1.trans (by decide)⟩
  · exact hmeets.mono fun _ _ hg i f hf => (hg i f hf).1
  · exact hmeets.mono fun _ _ hg i f hf => (hg i f hf).2.1.releases
  · exact hmeets.mono fun _ _ hg i f hf => (hg i f hf).2.2

end SegmentDB
end PedroDB
