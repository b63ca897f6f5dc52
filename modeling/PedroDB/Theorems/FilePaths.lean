import PedroDB.Paths
import PedroDB.Reference

/-!
# Which databases share files

`Init` looks for the last byte that is one of `.`, `d` and `b`, where a path should end in
`.db`, and then cuts off three bytes. Paths that differ in those bytes only lead to one name, and
so to the same data and index files.

## Main definitions

* `MetadataManager.Accepts` — `Init` accepts a path for a new database
* `MetadataManager.Apart` — two databases share no file
* `MetadataManager.SuffixRule` — the path is accepted exactly if it ends in `.db`
* `MetadataManager.stem` — a path without its last three bytes

## Main results

* `MetadataManager.apart_iff` — databases share no file exactly if their stems differ
* `MetadataManager.apart_of_suffix` — which is so if both paths end in `.db`
-/

namespace PedroDB.MetadataManager

/-- The suffix of a metadata path. -/
def dbSuffix : Bytes := ascii ['.', 'd', 'b']

/-- The data and index files of a database. -/
def logPaths (m : MetadataManager) : Set Bytes :=
  {f | ∃ id : UInt32, f = m.getDataFilePath id.toNat ∨ f = m.getIndexFilePath id.toNat}

/-- No data or index file of one database is a file of the other one. -/
structure Apart (path path' : Bytes) (m m' : MetadataManager) : Prop where
  logs : ∀ f ∈ m.logPaths, f ∉ m'.logPaths
  metadata : ∀ f ∈ m.logPaths, f ≠ path'
  metadata' : ∀ f ∈ m'.logPaths, f ≠ path

/-- The path in front of its last three bytes, or all of a shorter one. -/
def stem (path : Bytes) : Bytes :=
  if path.length < 3 then path else path.take (path.length - 3)

variable {path path' : Bytes} {m m' : MetadataManager} {xs : Bytes}

theorem nameOf_eq_stem (path : Bytes) : nameOf path = stem path := by
  rw [nameOf, stem]
  split_ifs with hshort
  · -- The difference wraps around, and the whole path is taken.
    apply List.take_of_length_le
    rw [sub64, if_neg (by omega), u64]
    omega
  · rw [sub64_of_le (by omega)]

theorem stem_append (hlen : xs.length = 3) : stem (path ++ xs) = path := by
  rw [stem, if_neg (by simp [hlen]), List.length_append, hlen, Nat.add_sub_cancel,
    List.take_left]

section

variable [Platform]

/-- `Init` accepts this path for a database that does not exist yet. `File::Open` makes the
file; there is none with the empty path. -/
def Accepts (path : Bytes) (m : MetadataManager) : Prop :=
  path ≠ [] ∧ init path (some []) = some (.ok m)

/-- The path is accepted exactly if it ends in `.db`, and the name is the rest. -/
structure SuffixRule (path : Bytes) : Prop where
  accepts : (∃ m, Accepts path m) ↔ dbSuffix <:+ path
  name : ∀ m, Accepts path m → path = m.name ++ dbSuffix

theorem accepts_iff :
    Accepts path m ↔ (∃ c, path.getLast? = some c ∧ c ∈ dbSuffix) ∧
      m = createDatabase (stem path) := by
  rcases eq_or_ne path [] with rfl | hne
  · simp [Accepts]
  · have hname : nameOk path = true ↔ ∃ c, path.getLast? = some c ∧ c ∈ dbSuffix := nameOk_iff hne
    rw [Accepts, ← nameOf_eq_stem, ← hname, init]
    by_cases hok : nameOk path = true
    · simp [hok, hne, eq_comm]
    · simp [hok]

/-- A metadata path ends in another byte than a data or an index path. -/
theorem Accepts.ne_log (h : Accepts path m) {f : Bytes} (hf : f ∈ m'.logPaths) : f ≠ path := by
  rintro rfl
  obtain ⟨⟨c, hlast, hc⟩, -⟩ := accepts_iff.mp h
  obtain ⟨id, rfl | rfl⟩ := hf
  · obtain rfl : (97 : Byte) = c := Option.some_inj.mp (getLast?_getDataFilePath.symm.trans hlast)
    exact absurd hc (by decide)
  · obtain rfl : (120 : Byte) = c := Option.some_inj.mp (getLast?_getIndexFilePath.symm.trans hlast)
    exact absurd hc (by decide)

omit [Platform] in
/-- Data and index files tell the name of their database. -/
theorem name_eq_of_mem {f : Bytes} (hf : f ∈ m.logPaths) (hf' : f ∈ m'.logPaths) :
    m.name = m'.name := by
  obtain ⟨id, hid⟩ := hf
  obtain ⟨id', hid'⟩ := hf'
  rcases hid with rfl | rfl
  · rcases hid' with h | h
    · exact (getDataFilePath_inj h).1
    · have hlast := congrArg List.getLast? h
      rw [getLast?_getDataFilePath, getLast?_getIndexFilePath] at hlast
      exact absurd hlast (by decide)
  · rcases hid' with h | h
    · have hlast := congrArg List.getLast? h
      rw [getLast?_getDataFilePath, getLast?_getIndexFilePath] at hlast
      exact absurd hlast (by decide)
    · exact (getIndexFilePath_inj h).1

theorem apart_iff_stem (h : Accepts path m) (h' : Accepts path' m') :
    Apart path path' m m' ↔ stem path ≠ stem path' := by
  have hname : m.name = stem path := congrArg MetadataManager.name (accepts_iff.mp h).2
  have hname' : m'.name = stem path' := congrArg MetadataManager.name (accepts_iff.mp h').2
  constructor
  · intro hapart heq
    -- The data files with id 1 have one path.
    have hpath : m.getDataFilePath 1 = m'.getDataFilePath 1 := by
      rw [getDataFilePath, getDataFilePath, hname, hname', heq]
    exact hapart.logs _ ⟨1, Or.inl rfl⟩ ⟨1, Or.inl hpath⟩
  · intro hne
    constructor
    · intro f hf hf'
      apply hne
      rw [← hname, ← hname']
      exact name_eq_of_mem hf hf'
    · intro f hf
      exact h'.ne_log hf
    · intro f hf
      exact h.ne_log hf

theorem suffixRule_iff (path : Bytes) :
    SuffixRule path ↔ dbSuffix <:+ path ∨ ∀ c, path.getLast? = some c → c ∉ dbSuffix := by
  have hlast : ∀ xs : Bytes, (xs ++ dbSuffix).getLast? = some 98 := by
    intro xs
    rw [List.getLast?_append]
    rfl
  constructor
  · intro h
    by_contra hno
    push Not at hno
    obtain ⟨hsuffix, c, hc, hmem⟩ := hno
    exact hsuffix (h.accepts.mp ⟨_, accepts_iff.mpr ⟨⟨c, hc, hmem⟩, rfl⟩⟩)
  · rintro (⟨xs, rfl⟩ | hno)
    · have haccepts : (∃ m, Accepts (xs ++ dbSuffix) m) :=
        ⟨_, accepts_iff.mpr ⟨⟨98, hlast xs, by decide⟩, rfl⟩⟩
      refine ⟨iff_of_true haccepts (List.suffix_append _ _), fun m hm => ?_⟩
      rw [(accepts_iff.mp hm).2, createDatabase, stem_append rfl]
    · have hrejects : ∀ m, ¬ Accepts path m := by
        intro m hm
        obtain ⟨⟨c, hc, hmem⟩, -⟩ := accepts_iff.mp hm
        exact hno c hc hmem
      have hnone : ¬ ∃ m, Accepts path m := not_exists.mpr hrejects
      refine ⟨iff_of_false hnone ?_, fun m hm => absurd hm (hrejects m)⟩
      rintro ⟨xs, rfl⟩
      exact hno 98 (hlast xs) (by decide)

/-- Two new databases share no file exactly if their paths differ in front of their last three
bytes; and the path of a new database is treated as it should exactly if it ends in `.db`, or in
none of these three bytes. -/
theorem apart_iff :
    (∀ path path' m m', Accepts path m → Accepts path' m' → path ≠ path' →
      (Apart path path' m m' ↔ stem path ≠ stem path')) ∧
    ∀ path, SuffixRule path ↔
      dbSuffix <:+ path ∨ ∀ c, path.getLast? = some c → c ∉ dbSuffix :=
  ⟨fun _ _ _ _ h h' _ => apart_iff_stem h h', suffixRule_iff⟩

/-- Databases whose paths end in `.db` share no file. -/
theorem apart_of_suffix (h : Accepts path m) (h' : Accepts path' m') (hne : path ≠ path')
    (hsuffix : dbSuffix <:+ path) (hsuffix' : dbSuffix <:+ path') : Apart path path' m m' := by
  rw [apart_iff_stem h h']
  obtain ⟨xs, rfl⟩ := hsuffix
  obtain ⟨ys, rfl⟩ := hsuffix'
  rw [stem_append rfl, stem_append rfl]
  rintro rfl
  exact hne rfl

end

open scoped Reference

/-- `a.db` and `b.db`. -/
theorem apart_iff_twoNames :
    Apart (ascii ['a', '.', 'd', 'b']) (ascii ['b', '.', 'd', 'b'])
      (createDatabase (ascii ['a'])) (createDatabase (ascii ['b'])) ∧
    SuffixRule (ascii ['a', '.', 'd', 'b']) := by
  constructor
  · refine (apart_iff.1 _ _ _ _ ?_ ?_ (by decide)).mpr (by decide)
    · exact accepts_iff.mpr ⟨⟨98, by decide, by decide⟩, congrArg createDatabase (by decide)⟩
    · exact accepts_iff.mpr ⟨⟨98, by decide, by decide⟩, congrArg createDatabase (by decide)⟩
  · exact (apart_iff.2 _).mpr (Or.inl ⟨ascii ['a'], rfl⟩)

/-- `a.db` and `a.bd` are two databases with one name. -/
theorem exists_not_apart : ∃ path path' m m', Accepts path m ∧ Accepts path' m' ∧ path ≠ path' ∧
    ¬ Apart path path' m m' ∧ ¬ SuffixRule path' := by
  have h : Accepts (ascii ['a', '.', 'd', 'b']) (createDatabase (ascii ['a'])) :=
    accepts_iff.mpr ⟨⟨98, by decide, by decide⟩, congrArg createDatabase (by decide)⟩
  have h' : Accepts (ascii ['a', '.', 'b', 'd']) (createDatabase (ascii ['a'])) :=
    accepts_iff.mpr ⟨⟨100, by decide, by decide⟩, congrArg createDatabase (by decide)⟩
  refine ⟨_, _, _, _, h, h', by decide, fun hapart => ?_, fun hrule => ?_⟩
  · exact (apart_iff_stem h h').mp hapart (by decide)
  · exact absurd (hrule.accepts.mp ⟨_, h'⟩) (by decide)

end PedroDB.MetadataManager
