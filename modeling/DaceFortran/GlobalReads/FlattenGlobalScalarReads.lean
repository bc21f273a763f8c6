/-
# `FlattenGlobalScalarReads`

The pass that reads a component of a module record from a synthetic global of its own:
the scan for written globals, the collection of component reads, the name of the synthetic
global and the subscript each read gets.
-/
import DaceFortran.GlobalReads.RecordCode
import Mathlib.Data.List.GetD
import Mathlib.Data.List.Nodup
import Mathlib.Algebra.Order.Ring.Int
import Mathlib.Tactic.Ring

open List

namespace GlobalReads

/-! ## Traces -/

/-- `traceToGlobalSym`, with the number of addresses left to look at. -/
def traceFrom : ℕ → Address → Option Name
  | 0, _ => none
  | _ + 1, .addrOf s => some s
  | d + 1, .declare m _ | d + 1, .convert m | d + 1, .boxAddr m => traceFrom d m
  | _ + 1, _ => none

/-- `kTraceDepth` -/
def traceDepth : ℕ := 16

def traceToGlobalSym (v : Address) : Option Name := traceFrom traceDepth v

/-- The designates of a write first, then the trace of what is left. -/
def traceWriteFrom : ℕ → Address → Option Name
  | 0, _ => none
  | d + 1, .designate m _ _ _ _ => traceWriteFrom d m
  | _ + 1, v => traceToGlobalSym v

/-- `traceWriteToGlobalSym` -/
def traceWriteToGlobalSym (v : Address) : Option Name := traceWriteFrom traceDepth v

def isUpper (c : Char) : Bool := decide ('A' ≤ c) && decide (c ≤ 'Z')

def isEntityChar (c : Char) : Bool :=
  (decide ('a' ≤ c) && decide (c ≤ 'z')) || (decide ('0' ≤ c) && decide (c ≤ '9')) ||
    decide (c = '_')

/-- `splitModuleScopeSymbol`: the module and the entity of `_QM<module>E<entity>`. -/
def splitModuleScopeSymbol (sym : Name) : Option (Name × Name) :=
  match sym with
  | '_' :: 'Q' :: 'M' :: s =>
    let mod := s.takeWhile fun c => !isUpper c
    match s.dropWhile fun c => !isUpper c with
    | 'E' :: entity =>
      if mod ≠ [] ∧ entity ≠ [] ∧ entity.all isEntityChar then some (mod, entity) else none
    | _ => none
  | _ => none

/-! ## Component reads -/

/-- The components from the root down to the leaf of a chain of plain component designates, and the
address they are taken off. -/
def componentChain : Address → List Name × Address
  | .designate m (some c) [] false false => ((componentChain m).1 ++ [c], (componentChain m).2)
  | v => ([], v)

/-- `elementDesignateOf` -/
def elementDesignateOf : Address → Option (Address × List Subscript)
  | .designate m none (s :: subs) false _ =>
    if (s :: subs).any Subscript.isTriplet then none else some (m, s :: subs)
  | _ => none

/-- `Candidate` -/
structure Candidate where
  symbol : Name
  members : List Name
  element : Option (Address × List Subscript)
  recordMajor : Bool
  fields : List Name
  newSym : Name
  ty : ℕ
  deriving DecidableEq

/-- The declare an array of records is read through gives a shape. -/
def hasDeclaredShape : Address → Bool
  | .declare _ (some _) => true
  | _ => false

/-- The members with `_` between them. -/
def symbolSuffix : List Name → Name
  | [] => []
  | [c] => c
  | c :: rest => c ++ '_' :: symbolSuffix rest

/-- A static array of one dimension whose records have the one type of the member in all their
components. -/
def isRecordMajor (g : Global) (members : List Name) (ty : ℕ) : Bool :=
  match g.extents, g.fields, members with
  | some [_], some fields, [c] =>
      fields.all (fun f => decide (f.2 = ty)) && decide (c ∈ fields.map Prod.fst)
  | _, _, _ => false

/-- The global a chain starts from, if it is a record or an array of records of static shape with an
element designated; a designate has a subscript for each dimension. -/
def hostOf (M : Module) (element : Option (Address × List Subscript)) (sym : Name) :
    Option Global :=
  (M.globals.find? fun g => decide (g.name = sym)).filter fun g =>
    !g.constant && g.fields.isSome &&
      match element with
      | some (m, subs) =>
        g.extents.any (fun e => decide (e.length = subs.length)) && !g.dynamic && hasDeclaredShape m
      | none => g.extents.isNone

/-- A read that passes all tests but the last: the candidate it would make. -/
def candidateOf (M : Module) (r : Read) : Option Candidate :=
  let chain := componentChain r.address
  let element := elementDesignateOf chain.2
  if chain.1 = [] then none
  else
    (traceToGlobalSym (match element with | some (m, _) => m | none => chain.2)).bind fun sym =>
      (splitModuleScopeSymbol sym).bind fun _ =>
        (hostOf M element sym).bind fun g =>
          r.refTy.map fun ty =>
            let recordMajor := element.isSome && isRecordMajor g chain.1 ty
            { symbol := sym
              members := chain.1
              element := element
              recordMajor := recordMajor
              fields := (g.fields.getD []).map Prod.fst
              newSym := sym ++ '_' :: (if recordMajor then ['c', 'm'] else symbolSuffix chain.1)
              ty := ty }

/-- Every operation of the module, in order. -/
def Module.allOps (M : Module) : List Op := M.functions.flatten

def Op.asRead : Op → Option Read
  | .read r => some r
  | _ => none

def Module.reads (M : Module) : List Read := M.allOps.filterMap Op.asRead

/-- The symbol the scan finds for a store or an assignment. -/
def Op.scanned : Op → Option Name
  | .store m | .assign m => traceWriteToGlobalSym m
  | _ => none

/-- `writtenGlobals` -/
def Module.written (M : Module) : List Name := M.allOps.filterMap Op.scanned

/-- `takenNames` -/
def Module.taken (M : Module) : List Name := M.globals.map Global.name ++ M.declared

/-- The last test: the type has a name, nothing writes the global, the symbol is free, and only
loads use the read. -/
def readable (M : Module) (r : Read) (c : Candidate) : Bool :=
  r.named && decide (c.symbol ∉ M.written) && decide (c.newSym ∉ M.taken) && r.onlyLoads

/-- The symbols some read of which failed the last test. -/
def rejected (M : Module) : List Name :=
  M.reads.filterMap fun r => (candidateOf M r).bind fun c => if readable M r c then none
    else some c.newSym

/-- The reads the pass rewrites, each with its candidate. -/
def rewritten (M : Module) : List (Read × Candidate) :=
  M.reads.filterMap fun r =>
    (candidateOf M r).bind fun c =>
      if readable M r c ∧ c.newSym ∉ rejected M then some (r, c) else none

/-- The candidate the synthetic global was created for, whose member the bindings assign to it. -/
def creator (M : Module) (newSym : Name) : Option Candidate :=
  ((rewritten M).find? fun p => decide (p.2.newSym = newSym)).map Prod.snd

/-! ## What a rewritten read returns -/

/-- The places of scalar subscripts, from dimension `d` on. -/
def placeFrom (env : ℕ → ℤ) (lb : ℕ → ℤ) : ℕ → List Subscript → List ℤ
  | d, .scalar v :: subs => (env v - lb d) :: placeFrom env lb (d + 1) subs
  | _, _ => []

/-- The subscript of a record-major read: the ordinal of the member and the number of members times
each index. -/
def recordMajorIndex (env : ℕ → ℤ) (c : Candidate) (subs : List Subscript) : ℤ :=
  subs.foldl (fun acc s => acc + (match s with | .scalar v => env v | .triplet lo _ _ => env lo) *
    c.fields.length)
    (c.fields.idxOf (c.members.headD []) : ℤ)

/-- The place of the host that the read's place of the synthetic global was assigned from: the
record array in the order of its layout for a record-major one, whose lower bound is one, the
creator's member otherwise. -/
def sourceOf (env : ℕ → ℤ) (first c : Candidate) : Location :=
  ⟨.sym first.symbol,
    match c.element with
    | none => first.members.map .component
    | some (m, subs) =>
      if c.recordMajor then
        let k := recordMajorIndex env c subs - 1
        [.element [k / c.fields.length],
          .component (c.fields.getD (k % c.fields.length).toNat [])]
      else .element (placeFrom env (lowerBound m) 0 subs) :: first.members.map .component⟩

end GlobalReads

/-
# The values of rewritten reads

What the traces find is the root of every location the address names, so that a write the
scan has found is no write to a rewritten read.  The reads then return the values of the
execution exactly if no other write reaches them and every synthetic global holds, where it
is read, the member read.
-/

namespace GlobalReads

/-! ## Locations of traced addresses -/

variable {a : Activation} {l : Location} {M : Module}

variable {v : Address} {c : Candidate} {r : Read}

variable {d : ℕ} {s : Name} {env : ℕ → ℤ} {subs : List Subscript}

theorem traceFrom_names (h : traceFrom d v = some s)
    (hn : Names a v l) : l = ⟨.sym s, []⟩ := by
  induction d generalizing v with
  | zero => cases h
  | succ d ih =>
    cases v with
    | addrOf s' =>
      cases h
      exact hn
    | declare m lbs => exact ih h hn
    | convert m => exact ih h hn
    | boxAddr m => exact ih h hn
    | designate m c is e sh => cases h
    | arg n => cases h
    | other n => cases h

/-- The symbol a write is traced to is the root of all it writes. -/
theorem traceWriteFrom_root (h : traceWriteFrom d v = some s)
    (hn : Names a v l) : l.root = .sym s := by
  induction d generalizing v l with
  | zero => cases h
  | succ d ih =>
    cases v with
    | designate m c is e sh =>
      obtain ⟨base, steps, hb, -, rfl⟩ := hn
      show base.root = .sym s
      exact ih h hb
    | addrOf s' => rw [traceFrom_names h hn]
    | declare m lbs => rw [traceFrom_names h hn]
    | convert m => rw [traceFrom_names h hn]
    | boxAddr m => rw [traceFrom_names h hn]
    | arg n => cases h
    | other n => cases h

theorem scanned_root {op : Op} (h : op.scanned = some s) {t : Address}
    (ht : t ∈ op.targets M) (hn : Names a t l) : l.root = .sym s := by
  cases op with
  | read r => cases ht
  | store m =>
    rw [mem_singleton.1 ht] at hn
    exact traceWriteFrom_root h hn
  | assign m =>
    rw [mem_singleton.1 ht] at hn
    exact traceWriteFrom_root h hn
  | call g actuals => cases h

/-- A chain of components names their path below what its base names. -/
theorem componentChain_names (hn : Names a v l) :
    ∃ base, Names a (componentChain v).2 base ∧
      l = ⟨base.root, base.path ++ (componentChain v).1.map .component⟩ := by
  induction v generalizing l with
  | designate m c is e sh ih =>
    by_cases hplain : ∃ c', c = some c' ∧ is = [] ∧ e = false ∧ sh = false
    · obtain ⟨c', rfl, rfl, rfl, rfl⟩ := hplain
      obtain ⟨base, steps, hb, hs, rfl⟩ := hn
      obtain ⟨base', hb', rfl⟩ := ih hb
      refine ⟨base', hb', ?_⟩
      rw [show steps = [.component c'] from hs]
      simp [componentChain]
    · refine ⟨l, ?_, ?_⟩
      · rw [show (componentChain (.designate m c is e sh)).2 = .designate m c is e sh from ?_]
        · exact hn
        · unfold componentChain
          split
          · rename_i m' c' heq
            cases heq
            exact (hplain ⟨_, rfl, rfl, rfl, rfl⟩).elim
          · rfl
      · rw [show (componentChain (.designate m c is e sh)).1 = [] from ?_]
        · simp
        · unfold componentChain
          split
          · rename_i m' c' heq
            cases heq
            exact (hplain ⟨_, rfl, rfl, rfl, rfl⟩).elim
          · rfl
  | addrOf s => exact ⟨l, hn, by simp [componentChain]⟩
  | declare m lbs => exact ⟨l, hn, by simp [componentChain]⟩
  | convert m => exact ⟨l, hn, by simp [componentChain]⟩
  | boxAddr m => exact ⟨l, hn, by simp [componentChain]⟩
  | arg n => exact ⟨l, hn, by simp [componentChain]⟩
  | other n => exact ⟨l, hn, by simp [componentChain]⟩

/-- Scalar subscripts take one place. -/
theorem takesPlace_scalar {lb : ℕ → ℤ} {place : List ℤ}
    (h : TakesPlace env lb d subs place) (hs : subs.any Subscript.isTriplet = false) :
    place = placeFrom env lb d subs := by
  induction subs generalizing d place with
  | nil =>
    cases place with
    | nil => rfl
    | cons i place => exact h.elim
  | cons s subs ih =>
    rw [any_cons, Bool.or_eq_false_iff] at hs
    cases s with
    | triplet lo hi stride => exact absurd hs.1 (by simp [Subscript.isTriplet])
    | scalar v =>
      cases place with
      | nil => exact h.elim
      | cons i place =>
        have hi : i + lb d = env v := h.1
        rw [ih h.2 hs.2]
        show i :: placeFrom env lb (d + 1) subs = (env v - lb d) :: placeFrom env lb (d + 1) subs
        rw [← hi, show i + lb d - lb d = i from by omega]

theorem elementDesignateOf_names {v m : Address}
    (h : elementDesignateOf v = some (m, subs)) (hn : Names a v l) :
    ∃ base, Names a m base ∧
      l = ⟨base.root, base.path ++ [.element (placeFrom a.env (lowerBound m) 0 subs)]⟩ := by
  unfold elementDesignateOf at h
  split at h
  · rename_i m' s subs' sh
    split_ifs at h with ht
    cases h
    obtain ⟨base, steps, hb, hs, rfl⟩ := hn
    unfold Steps at hs
    rw [if_neg (cons_ne_nil _ _)] at hs
    obtain ⟨place, hp, rfl⟩ := hs
    refine ⟨base, hb, ?_⟩
    rw [takesPlace_scalar hp (by simpa using ht)]
    rfl
  · cases h

/-! ## Candidates -/

/-- Where the host has the member a candidate reads. -/
def Candidate.location (env : ℕ → ℤ) (c : Candidate) : Location :=
  ⟨.sym c.symbol,
    (match c.element with
      | none => []
      | some (m, subs) => [.element (placeFrom env (lowerBound m) 0 subs)]) ++
      c.members.map .component⟩

/-- What a record-major candidate is. -/
structure RecordMajor (c : Candidate) : Prop where
  single : ∃ m v, c.element = some (m, [v])
  member : ∃ x, c.members = [x] ∧ x ∈ c.fields
  distinct : c.fields.Nodup

theorem candidateOf_eq (h : candidateOf M r = some c) :
    c.members = (componentChain r.address).1 ∧
      c.element = elementDesignateOf (componentChain r.address).2 ∧
      traceToGlobalSym
          (match c.element with | some (m, _) => m | none => (componentChain r.address).2) =
        some c.symbol ∧
      (c.recordMajor = true → RecordMajor c) := by
  unfold candidateOf at h
  simp only at h
  split_ifs at h with hchain
  obtain ⟨sym, hsym, h⟩ := Option.bind_eq_some_iff.1 h
  obtain ⟨names, -, h⟩ := Option.bind_eq_some_iff.1 h
  obtain ⟨g, hg, h⟩ := Option.bind_eq_some_iff.1 h
  obtain ⟨ty, hty, rfl⟩ := Option.map_eq_some_iff.1 h
  refine ⟨rfl, rfl, hsym, ?_⟩
  intro hrec
  rw [Bool.and_eq_true] at hrec
  obtain ⟨helem, hrec⟩ := hrec
  unfold isRecordMajor at hrec
  split at hrec
  · rename_i n fields x he hf hx
    rw [Bool.and_eq_true, decide_eq_true_eq] at hrec
    unfold hostOf at hg
    rw [Option.filter_eq_some_iff] at hg
    obtain ⟨-, hg⟩ := hg
    cases hel : elementDesignateOf (componentChain r.address).2 with
    | none =>
      rw [hel] at helem
      cases helem
    | some p =>
      obtain ⟨m, subs⟩ := p
      rw [hel] at hg
      simp only [Bool.and_eq_true, he, Option.any_some, decide_eq_true_eq] at hg
      have hlen : [n].length = subs.length := hg.2.1.1
      obtain ⟨v, rfl⟩ : ∃ v, subs = [v] := length_eq_one_iff.1 hlen.symm
      exact ⟨⟨m, v, rfl⟩, ⟨x, hx, by rw [hf]; exact hrec.2⟩, g.distinct⟩
  · cases hrec

/-- A candidate's read names its location and no other. -/
theorem candidate_location (h : candidateOf M r = some c)
    (hn : Names a r.address l) : l = c.location a.env := by
  obtain ⟨hm, he, ht, -⟩ := candidateOf_eq h
  obtain ⟨base, hb, rfl⟩ := componentChain_names hn
  unfold Candidate.location
  rw [hm]
  cases hel : c.element with
  | none =>
    rw [hel] at ht
    rw [traceFrom_names ht hb]
  | some p =>
    obtain ⟨m, subs⟩ := p
    rw [hel] at ht
    obtain ⟨base', hb', rfl⟩ := elementDesignateOf_names (he.symm.trans hel) hb
    rw [traceFrom_names ht hb']
    rfl

/-- The synthetic global has the read's member where it is read: its creator has the same host, and
the same member unless it is record-major, which is right for records of one component and a lower
bound of one. -/
def HoldsMember (first c : Candidate) : Prop :=
  first.symbol = c.symbol ∧
    if c.recordMajor then
      c.fields.length = 1 ∧ ∀ m subs, c.element = some (m, subs) → lowerBound m 0 = 1
    else first.members = c.members

theorem components_inj {xs ys : List Name} : xs.map Step.component = ys.map Step.component ↔
    xs = ys := by
  constructor
  · intro h
    exact map_injective_iff.2 (fun x y hxy => Step.component.inj hxy) h
  · rintro rfl
    rfl

/-- The record-major subscript hits the member of the record in one case only. -/
theorem recordMajor_hits {fields : List Name} (hd : fields.Nodup) {x : Name}
    (hx : x ∈ fields) (i lb : ℤ) :
    (((fields.idxOf x : ℤ) + i * fields.length - 1) / fields.length = i - lb ∧
      fields.getD (((fields.idxOf x : ℤ) + i * fields.length - 1) % fields.length).toNat [] = x) ↔
      fields.length = 1 ∧ lb = 1 := by
  have hord := idxOf_lt_length_of_mem hx
  have hpos : (0 : ℤ) < fields.length := by omega
  constructor
  · rintro ⟨hdiv, hmod⟩
    set k := (fields.idxOf x : ℤ) + i * fields.length - 1 with hk
    have hlo := Int.emod_nonneg k (ne_of_gt hpos)
    have hhi := Int.emod_lt_of_pos k hpos
    have hlt : (k % fields.length).toNat < fields.length := by omega
    -- the member is at its ordinal only
    have hidx : fields.idxOf x = (k % fields.length).toNat := by
      rw [getD_eq_getElem _ _ hlt] at hmod
      rw [← hmod]
      exact hd.idxOf_getElem _ hlt
    have hsplit := Int.mul_ediv_add_emod k fields.length
    rw [hdiv] at hsplit
    have hone : (fields.length : ℤ) * lb = 1 := by
      have hexp : (fields.length : ℤ) * (i - lb) = i * fields.length - fields.length * lb := by ring
      rw [hexp] at hsplit
      omega
    have hlb : 0 < lb := by
      by_contra hle
      have := mul_nonpos_of_nonneg_of_nonpos (le_of_lt hpos) (show lb ≤ 0 by omega)
      omega
    have hn : (fields.length : ℤ) = 1 := by
      have := mul_le_mul_of_nonneg_left (show (1 : ℤ) ≤ lb by omega) (le_of_lt hpos)
      omega
    rw [hn] at hone
    omega
  · rintro ⟨hn, rfl⟩
    obtain ⟨y, rfl⟩ := length_eq_one_iff.1 hn
    rw [mem_singleton.1 hx]
    simp

theorem sourceOf_eq_iff {first c : Candidate} (hr : c.recordMajor = true → RecordMajor c)
    (hs : ∀ m subs, c.element = some (m, subs) → subs.any Subscript.isTriplet = false) :
    sourceOf env first c = c.location env ↔ HoldsMember first c := by
  unfold sourceOf Candidate.location HoldsMember
  rw [Location.mk.injEq, Root.sym.injEq]
  apply and_congr_right
  intro hsym
  cases he : c.element with
  | none =>
    have hno : c.recordMajor = false := by
      cases hrec : c.recordMajor with
      | false => rfl
      | true =>
        obtain ⟨⟨m, v, hel⟩, -, -⟩ := hr hrec
        rw [he] at hel
        cases hel
    simp only [hno, nil_append, Bool.false_eq_true, if_false]
    exact components_inj
  | some p =>
    obtain ⟨m, subs⟩ := p
    cases hrec : c.recordMajor with
    | false =>
      simp only [Bool.false_eq_true, if_false, singleton_append, List.cons.injEq, true_and]
      exact components_inj
    | true =>
      obtain ⟨⟨m', v, hel⟩, ⟨x, hx, hxf⟩, hd⟩ := hr hrec
      rw [he] at hel
      cases hel
      have htrip := hs _ _ he
      cases v with
      | triplet lo hi stride => exact absurd htrip (by simp [Subscript.isTriplet])
      | scalar v =>
        simp only [if_true, hx, recordMajorIndex, foldl_cons, foldl_nil, headD_cons,
          placeFrom, map_cons, map_nil, singleton_append, List.cons.injEq, and_true,
          Step.element.injEq, Step.component.injEq]
        rw [recordMajor_hits hd hxf]
        constructor
        · rintro ⟨hn, hl⟩
          refine ⟨hn, ?_⟩
          intro m'' subs' hms
          cases hms
          exact hl
        · rintro ⟨hn, hl⟩
          exact ⟨hn, hl _ _ rfl⟩

/-! ## The reads the pass rewrites -/

theorem mem_allOps {f : ℕ} {op : Op} (h : op ∈ M.ops f) : op ∈ M.allOps := by
  unfold Module.ops at h
  rw [getD_eq_getElem?_getD] at h
  cases hf : M.functions[f]? with
  | none =>
    rw [hf] at h
    cases h
  | some ops =>
    rw [hf] at h
    exact mem_flatten.2 ⟨ops, mem_of_getElem? hf, h⟩

theorem rewritten_spec (h : (r, c) ∈ rewritten M) :
    candidateOf M r = some c ∧ c.symbol ∉ M.written := by
  obtain ⟨r', -, h⟩ := mem_filterMap.1 h
  obtain ⟨c', hc, h⟩ := Option.bind_eq_some_iff.1 h
  split_ifs at h with hr
  cases h
  refine ⟨hc, ?_⟩
  have hread := hr.1
  simp only [readable, Bool.and_eq_true, decide_eq_true_eq] at hread
  exact hread.1.1.2

theorem creator_exists (h : (r, c) ∈ rewritten M) :
    ∃ first, creator M c.newSym = some first := by
  unfold creator
  cases hf : (rewritten M).find? fun p => decide (p.2.newSym = c.newSym) with
  | none =>
    have := List.find?_eq_none.1 hf (r, c) h
    simp at this
  | some p => exact ⟨p.2, rfl⟩

/-! ## Soundness -/

section Sound

variable (M : Module) (elsewhere : ℕ → Location → Prop)

/-- In every execution that starts with the synthetic globals holding the members they were
assigned, every rewritten read returns what the original read returns at that point. -/
def ReadsSound : Prop :=
  ∀ m₀ m, Reaches M elsewhere m₀ m → ∀ r c, (r, c) ∈ rewritten M →
    ∀ a l first, Executes M elsewhere (.read r) a → Names a r.address l →
      creator M c.newSym = some first → m l = m₀ (sourceOf a.env first c)

/-- No store, assignment or callee that the scan has no symbol for writes a location of an executed
read, and the read's synthetic global holds its member. -/
def ReadsExact : Prop :=
  ∀ r c, (r, c) ∈ rewritten M → ∀ a l first, Executes M elsewhere (.read r) a →
    Names a r.address l →
    creator M c.newSym = some first →
      HoldsMember first c ∧
        ∀ op b t w, Executes M elsewhere op b → op.scanned = none → t ∈ op.targets M → Names b t w →
          ¬ w.Covers l

variable {M elsewhere}

variable {c : Candidate}

theorem source_eq_location {r : Read} (h : (r, c) ∈ rewritten M) (env : ℕ → ℤ)
    (first : Candidate) : sourceOf env first c = c.location env ↔ HoldsMember first c := by
  obtain ⟨hc, -⟩ := rewritten_spec h
  obtain ⟨-, he, -, hr⟩ := candidateOf_eq hc
  apply sourceOf_eq_iff hr
  intro m subs hms
  rw [he] at hms
  unfold elementDesignateOf at hms
  split at hms
  · split_ifs at hms with ht
    cases hms
    simpa using ht
  · cases hms

/-- A write leaves a rewritten read alone under the condition. -/
theorem writes_keeps (hx : ReadsExact M elsewhere) {r : Read} (h : (r, c) ∈ rewritten M)
    {a : Activation} {l : Location} (ha : Executes M elsewhere (.read r) a)
    (hl : Names a r.address l)
    {m m' : Memory} (hw : Writes M elsewhere m m') : m' l = m l := by
  obtain ⟨op, b, t, hb, ht, hsame⟩ := hw
  apply hsame
  intro w hn hcov
  obtain ⟨first, hfirst⟩ := creator_exists h
  obtain ⟨hc, hunwritten⟩ := rewritten_spec h
  cases hs : op.scanned with
  | none => exact (hx r c h a l first ha hl hfirst).2 op b t w hb hs ht hn hcov
  | some s =>
    -- the scan has found the symbol, which is then not the one of the read
    obtain ⟨f, -, hop⟩ := hb.fn
    have hroot : Root.sym s = Root.sym c.symbol := by
      rw [← scanned_root hs ht hn, hcov.1, candidate_location hc hl]
      rfl
    apply hunwritten
    rw [← Root.sym.inj hroot]
    exact mem_filterMap.2 ⟨op, mem_allOps hop, hs⟩

theorem reaches_keeps (hx : ReadsExact M elsewhere) {r : Read} (h : (r, c) ∈ rewritten M)
    {a : Activation} {l : Location} (ha : Executes M elsewhere (.read r) a)
    (hl : Names a r.address l)
    {m₀ m : Memory} (hr : Reaches M elsewhere m₀ m) : m l = m₀ l := by
  induction hr with
  | start => rfl
  | step hr hw ih => rw [writes_keeps hx h ha hl hw, ih]

/-- **The rewritten reads are sound exactly if no write that the scan has no symbol for reaches one
of them, and each synthetic global holds, where it is read, the member of the read.** -/
theorem readsSound_iff (M : Module) (elsewhere : ℕ → Location → Prop) :
    ReadsSound M elsewhere ↔ ReadsExact M elsewhere := by
  constructor
  · intro h r c hrc a l first ha hl hfirst
    obtain ⟨hc, -⟩ := rewritten_spec hrc
    constructor
    · rw [← source_eq_location hrc a.env first, ← candidate_location hc hl]
      -- a memory that is one at the location only
      have := h (fun x => if x = l then 1 else 0) _ .start r c hrc a l first ha hl hfirst
      by_contra hne
      rw [if_pos rfl, if_neg hne] at this
      exact absurd this (by decide)
    · intro op b t w hb hs ht hn hcov
      have hwrite : Writes M elsewhere (fun _ => 0) (fun x => if x = l then 1 else 0) := by
        refine ⟨op, b, t, hb, ht, ?_⟩
        intro l' hno
        have hne : l' ≠ l := by
          rintro rfl
          exact hno w hn hcov
        exact if_neg hne
      have := h (fun _ => 0) _ (.step .start hwrite) r c hrc a l first ha hl hfirst
      simp at this
  · intro hx m₀ m hr r c hrc a l first ha hl hfirst
    obtain ⟨hc, -⟩ := rewritten_spec hrc
    have hholds := (hx r c hrc a l first ha hl hfirst).1
    rw [reaches_keeps hx hrc ha hl hr, (source_eq_location hrc a.env first).2 hholds,
      ← candidate_location hc hl]

end Sound

/-! ## A re-declared sub-record -/

/-- `e` of module `m`, a record with the component `a`. -/
def eSym : Name := ['_', 'Q', 'M', 'm', 'E', 'e']

/-- `e%a%b` as the program reads it. -/
def readB : Read where
  address := .designate (.designate (.declare (.addrOf eSym) none) (some ['a']) [] false false)
    (some ['b'])
    [] false false
  refTy := some 0
  named := true
  onlyLoads := true

/-- The same component, stored to through a declare of `e%a` that inlining has left. -/
def storeB : Address :=
  .designate (.declare (.designate (.declare (.addrOf eSym) none) (some ['a']) [] false false) none)
    (some ['b']) [] false false

def redeclared : Module where
  globals := [⟨eSym, false, none, false, some [(['a'], 1)], by decide⟩]
  declared := [eSym]
  functions := [[.read readB, .store storeB]]
  entries := [0]

def readBCandidate : Candidate where
  symbol := eSym
  members := [['a'], ['b']]
  element := none
  recordMajor := false
  fields := [['a']]
  newSym := eSym ++ ['_', 'a', '_', 'b']
  ty := 0

/-- The store to the sub-record is missed: the rewritten read returns the old value. -/
theorem not_readsSound_redeclared : ¬ ReadsSound redeclared fun _ _ => False := by
  intro h
  set l : Location := ⟨.sym eSym, [.component ['a'], .component ['b']]⟩ with hl
  set a : Activation := ⟨fun _ => 0, fun _ _ => False, fun _ _ => False⟩ with ha
  have hact : Activated redeclared (fun _ _ => False) 0 fun _ _ => False :=
    .entry (by decide) (fun _ _ h => h.elim)
  have hread : Executes redeclared (fun _ _ => False) (.read readB) a := ⟨⟨0, hact, by decide⟩, rfl⟩
  have hstore : Executes redeclared (fun _ _ => False) (.store storeB) a :=
    ⟨⟨0, hact, by decide⟩, rfl⟩
  have hnames : Names a readB.address l :=
    ⟨⟨.sym eSym, [.component ['a']]⟩, [.component ['b']],
      ⟨⟨.sym eSym, []⟩, [.component ['a']], rfl, rfl, rfl⟩, rfl, rfl⟩
  have hwrites : Names a storeB l :=
    ⟨⟨.sym eSym, [.component ['a']]⟩, [.component ['b']],
      ⟨⟨.sym eSym, []⟩, [.component ['a']], rfl, rfl, rfl⟩, rfl, rfl⟩
  have hwrite : Writes redeclared (fun _ _ => False) (fun _ => 0) (fun x => if x =
      l then 1 else 0) := by
    refine ⟨_, a, storeB, hstore, List.mem_singleton_self _, ?_⟩
    intro l' hno
    apply if_neg
    rintro rfl
    exact hno _ hwrites ⟨rfl, List.prefix_refl _⟩
  have := h (fun _ => 0) _ (.step .start hwrite) readB readBCandidate
    (by decide) a l readBCandidate hread hnames
    (by decide)
  exact absurd this (by simp)

end GlobalReads
