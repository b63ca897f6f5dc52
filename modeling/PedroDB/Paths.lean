import PedroDB.DBImpl

/-!
# The files of a database

`Init` takes the path of the metadata file, checks how it ends, and cuts off three bytes to get
the name of the database. Data and index files are called by that name, the file id in decimal
and a suffix.

## Main definitions

* `findLastOf`, `decimal` — `std::string::find_last_of`, and a number as `fmt::format` prints it
* `MetadataManager.init` — `Init`
* `MetadataManager.getDataFilePath`, `MetadataManager.getIndexFilePath`

## Main results

* `nameOk_concat` — the check of the path looks at its last byte
* `getDataFilePath_inj`, `getIndexFilePath_inj` — a path tells the name and the id
-/

namespace PedroDB

/-- The bytes of an ASCII text. -/
def ascii (cs : List Char) : Bytes := cs.map fun c => UInt8.ofNat c.toNat

/-- A number in decimal. -/
def decimal (n : ℕ) : Bytes := ascii (Nat.toDigits 10 n)

/-- `find_last_of`: where the last byte stands that is one of `chars`; `none` is `npos`. -/
def findLastOf (chars path : Bytes) : Option ℕ :=
  (path.reverse.findIdx? fun c => c ∈ chars).map fun i => path.length - 1 - i

namespace MetadataManager

/-- The check of `Init`, on the last index of one of the bytes of `".db"`. -/
def nameOk (path : Bytes) : Bool :=
  match findLastOf (ascii ['.', 'd', 'b']) path with
  -- For the empty path `size() - 1` is `npos` as well.
  | none => path.length = 0
  | some index => index = path.length - 1

/-- `path_.substr(0, path_.size() - 3)`; the unsigned difference may wrap around. -/
def nameOf (path : Bytes) : Bytes := path.take (sub64 path.length 3)

/-- `Init`, when `File::Open` and `GetSize` find or make a file with this content at the path,
or fail. The outer `none` is the fatal exit. -/
def init [Platform] (path : Bytes) (opened : Option Bytes) :
    Option (Except Status MetadataManager) :=
  if !nameOk path then some (.error .kInvalidArgument)
  else
    match opened with
    | none => some (.error .kIOError)
    | some file =>
      if file ≠ [] then (recovery file).map .ok
      else some (.ok (createDatabase (nameOf path)))

/-- `GetDataFilePath` -/
def getDataFilePath (m : MetadataManager) (id : ℕ) : Bytes :=
  m.name ++ ascii ['.'] ++ decimal id ++ ascii ['.', 'd', 'a', 't', 'a']

/-- `GetIndexFilePath` -/
def getIndexFilePath (m : MetadataManager) (id : ℕ) : Bytes :=
  m.name ++ ascii ['.'] ++ decimal id ++ ascii ['.', 'i', 'n', 'd', 'e', 'x']

end MetadataManager

/-! ### Numbers in paths -/

/-- A digit is not lost as a byte. -/
theorem ofNat_toNat_digit {c : Char} (h : c.isDigit) :
    Char.ofNat (UInt8.ofNat c.toNat).toNat = c ∧ UInt8.ofNat c.toNat ≠ 46 := by
  have hle : 48 ≤ c.toNat ∧ c.toNat ≤ 57 := by
    simpa [Char.isDigit, UInt32.le_iff_toNat_le] using h
  have hbyte : (UInt8.ofNat c.toNat).toNat = c.toNat := by
    rw [UInt8.toNat_ofNat']
    omega
  constructor
  · rw [hbyte, Char.ofNat_toNat]
  · intro hdot
    have := congrArg UInt8.toNat hdot
    rw [hbyte] at this
    change c.toNat = 46 at this
    omega

theorem decimal_injective : Function.Injective decimal := by
  intro m n h
  -- The digits are the bytes read as characters again.
  have hdigits : ∀ k, (decimal k).map (fun b => Char.ofNat b.toNat) = Nat.toDigits 10 k := by
    intro k
    rw [decimal, ascii, List.map_map]
    refine (List.map_congr_left ?_).trans (List.map_id _)
    intro c hc
    exact (ofNat_toNat_digit (Nat.isDigit_of_mem_toDigits (by decide) (by decide) hc)).1
  have htoDigits : Nat.toDigits 10 m = Nat.toDigits 10 n := by
    rw [← hdigits m, ← hdigits n, h]
  have hvalue := congrArg (fun ds => Nat.ofDigitChars 10 ds 0) htoDigits
  simpa using hvalue

/-- There is no dot in a number. -/
theorem dot_notMem_decimal (n : ℕ) : (46 : Byte) ∉ decimal n := by
  intro h
  obtain ⟨c, hc, hdot⟩ := List.mem_map.mp h
  exact (ofNat_toNat_digit (Nat.isDigit_of_mem_toDigits (by decide) (by decide) hc)).2 hdot

/-- What stands in front of the last dot and behind it. -/
theorem append_dot_inj {xs ys xs' ys' : Bytes} (hys : (46 : Byte) ∉ ys) (hys' : (46 : Byte) ∉ ys')
    (h : xs ++ ascii ['.'] ++ ys = xs' ++ ascii ['.'] ++ ys') : xs = xs' ∧ ys = ys' := by
  have hdot : ascii ['.'] = [46] := rfl
  rw [hdot, List.append_assoc, List.append_assoc] at h
  rcases List.append_eq_append_iff.mp h with ⟨zs, rfl, hzs⟩ | ⟨zs, rfl, hzs⟩
  · cases zs with
    | nil => exact ⟨by simp, by simpa using hzs⟩
    | cons z zs =>
      have htail : ys = zs ++ 46 :: ys' := (List.cons.inj hzs).2
      exact absurd (htail ▸ by simp) hys
  · cases zs with
    | nil => exact ⟨by simp, by simpa [eq_comm] using hzs⟩
    | cons z zs =>
      have htail : ys' = zs ++ 46 :: ys := (List.cons.inj hzs).2
      exact absurd (htail ▸ by simp) hys'

/-- The last number of a path, and what stands in front of its dot. -/
theorem append_dot_decimal_inj {xs xs' : Bytes} {n n' : ℕ}
    (h : xs ++ ascii ['.'] ++ decimal n = xs' ++ ascii ['.'] ++ decimal n') :
    xs = xs' ∧ n = n' := by
  obtain ⟨hxs, hn⟩ := append_dot_inj (dot_notMem_decimal n) (dot_notMem_decimal n') h
  exact ⟨hxs, decimal_injective hn⟩

namespace MetadataManager

variable {m m' : MetadataManager} {id id' : ℕ} {path : Bytes} {c : Byte}

theorem getDataFilePath_inj (h : m.getDataFilePath id = m'.getDataFilePath id') :
    m.name = m'.name ∧ id = id' :=
  append_dot_decimal_inj (List.append_cancel_right h)

theorem getIndexFilePath_inj (h : m.getIndexFilePath id = m'.getIndexFilePath id') :
    m.name = m'.name ∧ id = id' :=
  append_dot_decimal_inj (List.append_cancel_right h)

theorem getLast?_getDataFilePath : (m.getDataFilePath id).getLast? = some 97 := by
  rw [getDataFilePath, List.getLast?_append]
  rfl

theorem getLast?_getIndexFilePath : (m.getIndexFilePath id).getLast? = some 120 := by
  rw [getIndexFilePath, List.getLast?_append]
  rfl

/-- The check of the path looks at its last byte. -/
theorem nameOk_concat (xs : Bytes) (c : Byte) :
    nameOk (xs ++ [c]) = true ↔ c ∈ ascii ['.', 'd', 'b'] := by
  rw [nameOk, findLastOf, List.reverse_append, List.reverse_singleton, List.singleton_append,
    List.findIdx?_cons]
  by_cases hc : c ∈ ascii ['.', 'd', 'b']
  · simp [hc]
  · -- Any other byte of the set stands in front of the last one.
    rcases hfind : xs.reverse.findIdx? fun c => c ∈ ascii ['.', 'd', 'b'] with _ | i
    · simp [hc]
    · have hlt : i < xs.length := by
        have := (List.findIdx?_eq_some_iff_findIdx_eq.mp hfind).1
        simpa using this
      simp only [hc, decide_false, Bool.false_eq_true, if_false, Option.map_some,
        List.length_append, List.length_singleton, Nat.add_sub_cancel, iff_false,
        decide_eq_true_eq]
      omega

theorem nameOk_iff (hne : path ≠ []) :
    nameOk path = true ↔ ∃ c, path.getLast? = some c ∧ c ∈ ascii ['.', 'd', 'b'] := by
  rcases List.eq_nil_or_concat path with rfl | ⟨xs, c, rfl⟩
  · exact absurd rfl hne
  · rw [List.concat_eq_append, nameOk_concat]
    simp

/-- `Init` on what is on disk, once the path is accepted. -/
theorem init_eq_openMetadata [Platform] (hok : nameOk path = true) (disk : Disk) :
    init path (some disk.metadata) =
      (DBImpl.openMetadata (nameOf path) disk).map .ok := by
  rw [init, hok, DBImpl.openMetadata]
  by_cases hfile : disk.metadata = []
  · simp [hfile]
  · simp [hfile]

end MetadataManager

end PedroDB
