import PedroDB.Theorems.ReadYourWrites
import PedroDB.WriteRuns

/-!
# Reads through the cache and direct reads

A cached block is never dropped when its file grows. That is harmless as long as no block
of the file being written to gets into the cache, but `Compact` may roll over to a file
that `max_file_` does not know. Where no read touches such a block, the two kinds of
`Get` differ only on a record that ends exactly at the end of a sealed file.

## Main results

* `Session.get_cached_eq_direct_iff` — then the two kinds of `Get` agree exactly if both
  hide the record or neither does
* `Session.get_cached_ne_direct` — two writes after which they do not
-/

namespace PedroDB.Session

open Transition

section

variable [Platform] {opt : Options} {name : Bytes} {as : List Action} {s s' : Session}
  {a : Action} {L L' : Log} {key : Key}

/-- Both kinds of `Get` return, with the answer of the record unless they hide it. -/
theorem Inv.exists_reply (h : Inv opt s L)
    (hcache : s.db.fileManager.CacheOk s.db.readCache) (key : Key) :
    ∃ reply : Reply, reply.status ≠ .kCorruption ∧
      ∀ use_read_cache, SettledRead opt s (.get use_read_cache key) → ∃ db buffer,
        s.db.handleGet opt use_read_cache key s.buffer =
          some (if s.db.hiddenRead opt use_read_cache key then ⟨.kCorruption, none⟩ else reply,
            db, buffer) := by
  rcases hfind : s.db.find key with _ | dir
  · refine ⟨⟨.kNotFound, none⟩, by simp, fun use_read_cache _ => ⟨s.db, s.buffer, ?_⟩⟩
    simp [DBImpl.handleGet_none hfind, DBImpl.hiddenRead, hfind]
  · obtain ⟨w, -, hget⟩ := h.handleGet_live hcache hfind
    exact ⟨⟨.kOk, some w.value⟩, by simp, hget⟩

/-- After a careful run both kinds of `Get` return, and they agree exactly if they both
see the record or both hide it. -/
theorem get_cached_eq_direct_iff (hcareful : Guarded opt (Careful opt) name as)
    (hreach : Reaches opt name as s) (hread : SettledRead opt s (.get true key)) :
    ∃ cached direct db buffer db' buffer',
      s.db.handleGet opt true key s.buffer = some (cached, db, buffer) ∧
      s.db.handleGet opt false key s.buffer = some (direct, db', buffer') ∧
      (cached = direct ↔
        s.db.hiddenRead opt true key = s.db.hiddenRead opt false key) := by
  obtain ⟨L, h, hcache⟩ := exists_inv_cacheOk hcareful hreach
  obtain ⟨reply, hok, hget⟩ := h.exists_reply hcache key
  have hdirect : SettledRead opt s (.get false key) := by
    simp only [SettledRead]
    split
    · trivial
    · exact Or.inl (by simp [DBImpl.directlyRead])
  obtain ⟨db, buffer, hcached⟩ := hget true hread
  obtain ⟨db', buffer', hdirect⟩ := hget false hdirect
  refine ⟨_, _, db, buffer, db', buffer', hcached, hdirect, ?_⟩
  have hne : (⟨.kCorruption, none⟩ : Reply) ≠ reply := by
    rintro rfl
    exact hok rfl
  cases s.db.hiddenRead opt true key <;> cases s.db.hiddenRead opt false key
  · simp
  · simpa using hne.symm
  · simpa using hne
  · simp

end

open scoped Reference

/-- A record in a sealed file is read through the cache, and then both ways. -/
theorem get_cached_eq_direct_mixing : ∃ as s dir,
    Reaches Reference.options [] (as ++ [.get true [107]]) s ∧ s.db.find [107] = some dir ∧
    dir.loc = ⟨1, 47⟩ ∧ s.db.fileManager.activeFileId = 2 ∧
    DBImpl.directlyRead Reference.options true dir s.db = false ∧
    ∃ reply db buffer db' buffer',
      s.db.handleGet Reference.options true [107] s.buffer = some (reply, db, buffer) ∧
      s.db.handleGet Reference.options false [107] s.buffer = some (reply, db', buffer') := by
  obtain ⟨rest, hlen⟩ := exists_value (kMaxFileBytes - 96)
  obtain ⟨s₀, t, L, hs₀, hdb, hwrote, ht⟩ :=
    exists_wrote [] (placed_mixing hlen)
  have hindex := hwrote.index
  have hfm := hwrote.files
  rw [hdb] at hindex hfm
  obtain ⟨dir, hfind, hloc⟩ : ∃ dir, t.db.find [107] = some dir ∧ dir.loc = ⟨1, 47⟩ := by
    rw [hindex]
    exact ⟨_, rfl, rfl⟩
  have hactive : t.db.fileManager.activeFileId = 2 := by
    rw [hfm]
    rfl
  have hmax : t.db.maxFile = 2 := by
    rw [hindex]
    rfl
  have hread : SettledRead Reference.options t (.get true [107]) := by
    simp only [SettledRead, hfind, hloc, hactive]
    exact Or.inr (Or.inl (by decide))
  -- The first `Get` through the cache.
  have hguarded : Guarded Reference.options (Careful Reference.options) [] _ := fun s₁ hs₁ =>
    Option.some_inj.mp (hs₀.symm.trans hs₁) ▸ hwrote.careful
  obtain ⟨L', h, hcache⟩ := exists_inv_cacheOk hguarded ⟨s₀, hs₀, hwrote.run⟩
  obtain ⟨w, -, hget⟩ := h.handleGet_live hcache hfind
  obtain ⟨db, buffer, heq⟩ := hget true hread
  have hstep : step Reference.options t (.get true [107]) = some { t with db, buffer } := by
    rw [step, if_pos hwrote.quiescent, heq]
    rfl
  obtain ⟨L'', he, hs⟩ := ht.step (a := .get true [107]) ⟨trivial, trivial⟩ hstep
  -- It changes the cache and the open files only.
  obtain ⟨hfind', hactive', hmax'⟩ : db.find [107] = some dir ∧
      db.fileManager.activeFileId = 2 ∧ db.maxFile = 2 := by
    cases he with
    | get _ hdb => exact hdb ▸ ⟨hfind, hactive, hmax⟩
  have hdirectly : DBImpl.directlyRead Reference.options true dir db = false := by
    simp [DBImpl.directlyRead, hloc, hmax', Reference.options]
  have hread' : SettledRead Reference.options { t with db, buffer } (.get true [107]) := by
    simp only [SettledRead, hfind', hloc, hactive']
    exact Or.inr (Or.inl (by decide))
  have hguarded' : Guarded Reference.options (Careful Reference.options) []
      ((mixing (1 :: rest)).map (fun r => .write r.2) ++ [.get true [107]]) := fun s₁ hs₁ =>
    Option.some_inj.mp (hs₀.symm.trans hs₁) ▸
      (meets_concat hwrote.run).mpr ⟨hwrote.careful, trivial, trivial, hread⟩
  have hreach' : Reaches Reference.options [] _ { t with db, buffer } :=
    ⟨s₀, hs₀, run_concat.mpr ⟨t, hwrote.run, hstep⟩⟩
  obtain ⟨cached, direct, db₁, buffer₁, db₂, buffer₂, hcached, hdirect, hiff⟩ :=
    get_cached_eq_direct_iff hguarded' hreach' hread'
  obtain rfl := hiff.mpr (by rw [hs.hiddenRead_eq_false, hs.hiddenRead_eq_false])
  exact ⟨_, _, dir, hreach', hfind', hloc, hactive', hdirectly, cached, db₁, buffer₁, db₂, buffer₂,
    hcached, hdirect⟩

/-- Once a full file is sealed, the `Get` through the cache finds its last record and the
direct one does not. -/
theorem get_cached_ne_direct : ∃ as s key cached direct db buffer db' buffer',
    (∀ a ∈ as, a.IsAccess) ∧ Reaches Reference.options [] as s ∧
      s.db.handleGet Reference.options true key s.buffer = some (cached, db, buffer) ∧
      s.db.handleGet Reference.options false key s.buffer = some (direct, db', buffer') ∧
      cached.status = .kOk ∧ direct.status = .kCorruption := by
  obtain ⟨w, hkey, hvalue, s, L, dir, -, ⟨s₀, hs₀, hrun⟩, h, hfind, hid, hactive, hend⟩ :=
    exists_filled
  -- The record of the first write fills its file.
  have hfull : s.db.fileManager.activeOffset = kMaxFileBytes := by
    obtain ⟨w', hloc, hsize, -⟩ := h.live _ _ hfind
    refine Nat.le_antisymm h.inv.sound.holds.activeOffset_le ?_
    rw [h.inv.sound.holds.write, hactive, ← hid, ← hend, hsize]
    exact hloc.end_le
  -- So the second write goes to another file, and the first one is sealed.
  have hfits : ¬ s.db.fileManager.Fits
      (DBImpl.entryOf Reference.options (.put [108] [119])) := by
    rw [FileManager.Fits, hfull]
    exact Nat.not_le.mpr (Nat.lt_add_of_pos_right (Entry.size_pos))
  have hlimits : InLimits Reference.options s (.write (.put [108] [119])) := by
    refine ⟨show ([108] : Bytes).length ≤ 255 by decide, by decide, fun hwrap => ?_⟩
    have := hwrap.2
    rw [hactive] at this
    omega
  obtain ⟨s', hs'⟩ := h.exists_write hlimits
  obtain ⟨L', he⟩ := h.inv.effect (hlimits.within trivial) hs'
  have h' := h.step hlimits trivial he
  have hfind' : s'.db.find [107] = some dir := by
    cases he with
    | refused _ hbig => exact absurd hbig (by decide)
    | write =>
      rw [DBImpl.find_updateIndex, if_neg (by decide)]
      exact hfind
  have hmax : s'.db.maxFile = 2 := by
    rw [h'.max]
    cases he with
    | refused _ hbig => exact absurd hbig (by decide)
    | write =>
      rw [DBImpl.updateIndex_fileManager, ← FileManager.nextLoc_id, FileManager.nextLoc,
        if_neg hfits, hactive]
  -- `Valid()` does not see it, and the read cache does.
  have hhidden : s'.db.hiddenRead Reference.options false [107] = true ∧
      s'.db.hiddenRead Reference.options true [107] = false := by
    simp [DBImpl.hiddenRead, hfind', DBImpl.directlyRead, hend, hmax, hid, Reference.options]
  obtain ⟨db, buffer, hcached⟩ := h'.handleGet_eq true [107]
  obtain ⟨db', buffer', hdirect⟩ := h'.handleGet_eq false [107]
  refine ⟨[.write w] ++ [.write (.put [108] [119])], s', [107], _, _, db, buffer, db', buffer', ?_,
    ⟨s₀, hs₀, run_concat.mpr ⟨s, hrun, hs'⟩⟩, hcached, hdirect, ?_, ?_⟩
  · simp [Action.IsAccess]
  · have hw : written ([.write w] ++ [.write (.put [108] [119])]) [107] = some w.value := by
      rw [written_write, if_neg (by decide)]
      exact (@written_write [] w [107]).trans (by simp [hkey, hvalue])
    rw [hhidden.2, expected, hw]
    rfl
  · rw [hhidden.1]
    rfl

end PedroDB.Session
