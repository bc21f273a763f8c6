/-
# The subscript of a record-major read

The companion of an array of records holds the fields of one record after the other, from
its own lower bound on.  The subscript the pass emits is compared with the place a field of
a record has in that order.
-/
import DaceFortran.GlobalReads.FlattenGlobalScalarReads

namespace GlobalReads

/-! ## Places -/

/-- The lower bound of the companion: its declare has a plain `fir.shape`. -/
def companionLower : ℤ := 1

/-- A read of another member of the same record. -/
def Candidate.ofMember (c : Candidate) (x : Name) : Candidate := { c with members := [x] }

/-- The place in the companion that the emitted subscript names, counted from zero. -/
def companionPlace (env : ℕ → ℤ) (c : Candidate) (subs : List Subscript) : ℤ :=
  recordMajorIndex env c subs - companionLower

/-- The place of a field in storage: the records before it, and the fields before it in its own. -/
def storagePlace (c : Candidate) (lb i : ℤ) (x : Name) : ℤ :=
  (i - lb) * c.fields.length + c.fields.idxOf x

theorem companionPlace_ofMember (env : ℕ → ℤ) (c : Candidate) (x : Name) (k : ℕ) :
    companionPlace env (c.ofMember x) [.scalar k] = c.fields.idxOf x + env k *
      c.fields.length - 1 := rfl

/-- A record-major read the pass rewrites: the element designate it goes through, and the array of
records. -/
structure RecordMajorRead (M : Module) (c : Candidate) where
  read : Read
  rewritten : (read, c) ∈ rewritten M
  recordMajor : c.recordMajor = true
  host : Address
  index : ℕ
  element : c.element = some (host, [.scalar index])
  global : Global
  found : M.globals.find? (fun g => decide (g.name = c.symbol)) = some global
  outer : ℕ
  extents : global.extents = some [outer]

variable {M : Module} {c : Candidate}

def RecordMajorRead.lower (s : RecordMajorRead M c) : ℤ := lowerBound s.host 0

/-- The subscript is one of the host array. -/
def RecordMajorRead.InHost (s : RecordMajorRead M c) (env : ℕ → ℤ) : Prop :=
  s.lower ≤ env s.index ∧ env s.index < s.lower + s.outer

/-- The place a field is read at. -/
def RecordMajorRead.place (s : RecordMajorRead M c) (env : ℕ → ℤ) (x : Name) : ℤ :=
  companionPlace env (c.ofMember x) [.scalar s.index]

/-- Every field of every record is read where storage has it, inside the companion and apart from
the others. -/
structure RecordMajorRead.StorageExact (s : RecordMajorRead M c) : Prop where
  place : ∀ env x, s.InHost env → x ∈ c.fields →
    s.place env x = storagePlace c s.lower (env s.index) x
  inBounds : ∀ env x, s.InHost env → x ∈ c.fields →
    0 ≤ s.place env x ∧ s.place env x < c.fields.length * s.outer
  distinct : ∀ env env' x x', x ∈ c.fields → x' ∈ c.fields → s.place env x = s.place env' x' →
    env s.index = env' s.index ∧ x = x'

/-! ## Places of distinct fields -/

/-- Mixed radix: an ordinal below the number of fields and a record are told apart. -/
theorem mixed_radix_inj {n f f' : ℕ} {i i' : ℤ} (hf : f < n) (hf' : f' < n)
    (h : (f : ℤ) + i * n = f' + i' * n) : i = i' ∧ f = f' := by
  have hn : (0 : ℤ) < n := by omega
  have hmod : ((f : ℤ) + i * n) % n = (f' + i' * n) % n := by rw [h]
  rw [Int.add_mul_emod_self_right, Int.add_mul_emod_self_right,
    Int.emod_eq_of_lt (by omega) (by omega),
    Int.emod_eq_of_lt (by omega) (by omega)] at hmod
  have hff : f = f' := by omega
  subst hff
  have hmul : i * n = i' * n := by omega
  exact ⟨Int.eq_of_mul_eq_mul_right (by omega) hmul, rfl⟩

theorem companionPlace_inj {k : ℕ} {env env' : ℕ → ℤ} {x x' : Name} (hx : x ∈ c.fields)
    (hx' : x' ∈ c.fields)
    (h : companionPlace env (c.ofMember x) [.scalar k] =
      companionPlace env' (c.ofMember x') [.scalar k]) :
    env k = env' k ∧ x = x' := by
  rw [companionPlace_ofMember, companionPlace_ofMember] at h
  obtain ⟨hi, hf⟩ := mixed_radix_inj (List.idxOf_lt_length_of_mem hx)
    (List.idxOf_lt_length_of_mem hx')
    (by omega : (c.fields.idxOf
      x : ℤ) + env k * c.fields.length = c.fields.idxOf x' + env' k * c.fields.length)
  exact ⟨hi, (List.idxOf_inj hx).1 hf⟩

/-! ## The condition -/

/-- The emitted subscript is right exactly if the lower bound times the number of fields is the
lower bound of the companion. -/
theorem companionPlace_eq_storagePlace_iff (env : ℕ → ℤ) (c : Candidate) (lb : ℤ)
    (x : Name) (k : ℕ) :
    companionPlace env (c.ofMember x) [.scalar k] = storagePlace c lb (env k) x ↔
      c.fields.length * lb = 1 := by
  rw [companionPlace_ofMember]
  unfold storagePlace
  rw [Int.sub_mul, Int.mul_comm lb]
  omega

/-- A storage place is one of the companion's. -/
theorem storagePlace_inBounds {lb i : ℤ} {outer : ℕ} {x : Name} (hx : x ∈ c.fields)
    (hi : lb ≤ i ∧ i < lb + outer) :
    0 ≤ storagePlace c lb i x ∧ storagePlace c lb i x < c.fields.length * outer := by
  have hf := List.idxOf_lt_length_of_mem hx
  unfold storagePlace
  have h0 : 0 ≤ (i - lb) * c.fields.length := Int.mul_nonneg (by omega) (by omega)
  have h1 : (i - lb) * c.fields.length ≤ ((outer : ℤ) - 1) * c.fields.length :=
    Int.mul_le_mul_of_nonneg_right (by omega) (by omega)
  rw [Int.sub_mul (outer : ℤ), Int.one_mul, Int.mul_comm (outer : ℤ)] at h1
  omega

/-- A record has a field. -/
theorem RecordMajorRead.exists_field (s : RecordMajorRead M c) : ∃ x, x ∈ c.fields := by
  obtain ⟨hc, -⟩ := rewritten_spec s.rewritten
  obtain ⟨x, -, hx⟩ := ((candidateOf_eq hc).2.2.2 s.recordMajor).member
  exact ⟨x, hx⟩

theorem length_mul_eq_one_iff {n : ℕ} {lb : ℤ} : (n : ℤ) * lb = 1 ↔ n = 1 ∧ lb = 1 := by
  constructor
  · intro hmul
    have hn : (n : ℤ) = 1 := Int.eq_one_of_mul_eq_one_right (by omega) hmul
    rw [hn, Int.one_mul] at hmul
    exact ⟨by omega, hmul⟩
  · rintro ⟨rfl, rfl⟩
    rfl

/-- **The pass reads every field of a record array where storage has it exactly if the records have
one field and the array's lower bound is one**, or the array has no element. -/
theorem recordMajor_storage_iff (s : RecordMajorRead M c) :
    s.StorageExact ↔ s.outer = 0 ∨ (c.fields.length = 1 ∧ s.lower = 1) := by
  rw [← length_mul_eq_one_iff]
  constructor
  · intro hexact
    obtain ⟨x, hx⟩ := s.exists_field
    rcases Nat.eq_zero_or_pos s.outer with h0 | hpos
    · exact Or.inl h0
    · -- the first record
      have hin : s.InHost fun _ => s.lower :=
        ⟨Int.le_refl _, by show s.lower < s.lower + s.outer; omega⟩
      exact Or.inr ((companionPlace_eq_storagePlace_iff _ c _ x s.index).1
        (hexact.place _ x hin hx))
  · intro hcond
    have hplace : ∀ env x, s.InHost env → x ∈ c.fields →
        s.place env x = storagePlace c s.lower (env s.index) x := by
      intro env x hin hx
      rcases hcond with h0 | hmul
      · obtain ⟨hlo, hhi⟩ := hin
        omega
      · exact (companionPlace_eq_storagePlace_iff env c _ x s.index).2 hmul
    refine ⟨hplace, ?_, fun env env' x x' hx hx' he => companionPlace_inj hx hx' he⟩
    intro env x hin hx
    rw [hplace env x hin hx]
    exact storagePlace_inBounds hx hin

/-! ## Two fields -/

/-- `tbl(k)%lo` of `tbl(3)`, an array of records of the fields `lo` and `hi`. -/
def tblSym : Name := ['_', 'Q', 'M', 'm', 'E', 't', 'b', 'l']

def tblDeclare : Address := .declare (.addrOf tblSym) (some [1])

def readLo : Read where
  address := .designate (.designate tblDeclare none [.scalar 0] false false)
    (some ['l', 'o']) [] false false
  refTy := some 0
  named := true
  onlyLoads := true

def tblGlobal : Global :=
  ⟨tblSym, false, some [3], false, some [(['l', 'o'], 0), (['h', 'i'], 0)], by decide⟩

def tblModule : Module where
  globals := [tblGlobal]
  declared := [tblSym]
  functions := [[.read readLo]]
  entries := [0]

def loCandidate : Candidate where
  symbol := tblSym
  members := [['l', 'o']]
  element := some (tblDeclare, [.scalar 0])
  recordMajor := true
  fields := [['l', 'o'], ['h', 'i']]
  newSym := tblSym ++ ['_', 'c', 'm']
  ty := 0

def tblRead : RecordMajorRead tblModule loCandidate where
  read := readLo
  rewritten := by decide
  recordMajor := rfl
  host := tblDeclare
  index := 0
  element := rfl
  global := tblGlobal
  found := rfl
  outer := 3
  extents := rfl

/-- `tbl(1)%lo` is read at the second place of the companion, `tbl(3)%hi` behind its end. -/
theorem not_storageExact_tbl : ¬ tblRead.StorageExact := by
  intro h
  have hin : tblRead.InHost fun _ => 1 := ⟨by decide, by decide⟩
  have hplace := h.place (fun _ => 1) ['l', 'o'] hin (by decide)
  exact absurd hplace (by decide)

end GlobalReads
