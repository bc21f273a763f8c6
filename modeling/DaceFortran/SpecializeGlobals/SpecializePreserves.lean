/-
# The specialised module runs as the module does

Replacing the loads of a scalar that holds the value keeps every execution with its writes,
folding the branches of literals does too, and by induction over the keys and the rounds so
does the pass, for every execution whose writes stray to none of the scalars.
-/
import DaceFortran.SpecializeGlobals.WalkSound

open List

namespace SpecializeGlobals

open GlobalReads (Location Root Memory Step)

/-! ## Writes that leave a scalar -/

/-- What writes stray to leaves what is at a location. -/
def LeftBy (place : Location) (log : List Write) : Prop :=
  ∀ w ∈ log, w.strays place → w.after place = w.before place

/-- The value is there around every write. -/
def HeldBy (place : Location) (c : ℤ) (log : List Write) : Prop :=
  ∀ w ∈ log, w.before place = c ∧ w.after place = c

variable {place : Location} {M : Module} {args : Args}

variable {log : List Write} {env : Env} {l : Location}

@[simp] theorem LeftBy.cons_iff {w : Write} :
    LeftBy place (w :: log) ↔ (w.strays place → w.after place = w.before place) ∧
      LeftBy place log := by
  simp [LeftBy]

@[simp] theorem LeftBy.append_iff {log log' : List Write} :
    LeftBy place (log ++ log') ↔ LeftBy place log ∧ LeftBy place log' := by
  simp [LeftBy, or_imp, forall_and]

theorem HeldBy.cons {c : ℤ} {w : Write} (hb : w.before place = c)
    (ha : w.after place = c) (h : HeldBy place c log) : HeldBy place c (w :: log) := by
  intro w' hw'
  rcases mem_cons.1 hw' with rfl | hw'
  · exact ⟨hb, ha⟩
  · exact h w' hw'

theorem HeldBy.append {c : ℤ} {log log' : List Write} (h : HeldBy place c log)
    (h' : HeldBy place c log') : HeldBy place c (log ++ log') := by
  intro w hw
  rcases mem_append.1 hw with hw | hw
  · exact h w hw
  · exact h' w hw

/-! ## Modules rewritten procedure by procedure -/

variable {g : ℕ} {body : List Stmt} {stray : Bool}

theorem map_some (h : M[g]? = some body)
    (F : List Stmt → List Stmt) : (M.map F)[g]? = some (F body) := by
  rw [List.getElem?_map, h]
  rfl

theorem map_none (h : M[g]? = none) (F : List Stmt → List Stmt) :
    (M.map F)[g]? = none := by
  rw [List.getElem?_map, h]
  rfl

theorem onlyLoaded_body {sym : Name} {path : ScalarPath} (h : onlyLoaded sym path M = true)
    (hg : M[g]? = some body) : onlyLoadedIn sym path body = true := by
  simp only [onlyLoaded, all_eq_true] at h
  exact h body (mem_of_getElem? hg)

/-! ## The replacement -/

section Replace

variable {sym : Name} {path : ScalarPath} {c : ℤ}

theorem replaceAll_append (ss ts : List Stmt) :
    replaceAll sym path c (ss ++ ts) = replaceAll sym path c ss ++ replaceAll sym path c ts := by
  induction ss with
  | nil => rfl
  | cons s ss ih => simp only [cons_append, replaceAll, ih]

theorem onlyLoadedIn_append (ss ts : List Stmt) :
    onlyLoadedIn sym path (ss ++ ts) = (onlyLoadedIn sym path ss && onlyLoadedIn sym path ts) := by
  induction ss with
  | nil => rfl
  | cons s ss ih => simp only [cons_append, onlyLoadedIn, ih, Bool.and_assoc]

variable {W : World} {args : Args} {env : Env}

/-- A store to storage set aside leaves the scalar, unless it strays there. -/
theorem store_leaves (hargs : ∀ n l, args n l false → Apart l (scalarAt W sym path)) {t : Address}
    (ht : walk sym path t = .aside) {x : Location → ℤ} {m m' : Memory}
    (h : Stores (fun w => ∃ stray, Names W args env t w stray) x m m')
    (hleft : (∃ w, Names W args env t w true ∧ w.Covers (scalarAt W sym path)) →
      m' (scalarAt W sym path) = m (scalarAt W sym path)) :
    m' (scalarAt W sym path) = m (scalarAt W sym path) := by
  by_cases hw : ∃ w, Names W args env t w true ∧ w.Covers (scalarAt W sym path)
  · exact hleft hw
  · refine (h _).2 ?_
    rintro ⟨w, ⟨stray, hn⟩, hc⟩
    cases stray with
    | true => exact hw ⟨w, hn, hc⟩
    | false =>
      have hspec := walk_spec hargs hn
      rw [ht] at hspec
      exact (hspec rfl).not_covers hc

/-- The actual arguments of a call hold what is apart from the scalar, unless they stray. -/
theorem actuals_apart (hargs : ∀ n l, args n l false → Apart l (scalarAt W sym path))
    {xs : List Address} (hxs : ∀ a ∈ xs, walk sym path a = .aside) {n : ℕ} {l : Location}
    (h : ∃ a, xs[n]? = some a ∧ Names W args env a l false) : Apart l (scalarAt W sym path) := by
  obtain ⟨a, ha, hn⟩ := h
  have hspec := walk_spec hargs hn
  rw [hxs a (mem_of_getElem? ha)] at hspec
  exact hspec rfl

/-- **An execution with the loads replaced**: the same writes and values, and the scalar keeps its
value. -/
theorem Exec.replace {M : Module} (hM : onlyLoaded sym path M = true) {ss : List Stmt} {m : Memory}
    {log : List Write} {out : Option (Env × Memory)} (h : Exec W M args ss env m log out)
    (hss : onlyLoadedIn sym path ss = true)
    (hargs : ∀ n l, args n l false → Apart l (scalarAt W sym path))
    (hc : m (scalarAt W sym path) = c) (hleft : LeftBy (scalarAt W sym path) log) :
    Exec W (M.map (replaceAll sym path c)) args (replaceAll sym path c ss) env m log out ∧
      HeldBy (scalarAt W sym path) c log ∧ ∀ x ∈ out, x.2 (scalarAt W sym path) = c := by
  -- on the execution: before each statement the scalar holds the value, and what the arguments hold
  -- is apart from it
  induction h with
  | done => exact ⟨.done, by simp [HeldBy], by rintro x ⟨⟩; exact hc⟩
  | stopped => exact ⟨.stopped, by simp [HeldBy], by rintro x ⟨⟩⟩
  | @load args v a ss env m w stray log out hn h ih =>
    simp only [onlyLoadedIn, Bool.and_eq_true] at hss
    obtain ⟨hex, hkeep⟩ := ih hss.2 hargs hc hleft
    refine ⟨?_, hkeep⟩
    simp only [replaceAll, replaceIn]
    split_ifs with hw
    · -- the load reads the scalar
      have hspec := walk_spec hargs hn
      rw [hw] at hspec
      have hv : m w = c := by
        rw [show w = scalarAt W sym path from hspec]
        exact hc
      rw [hv] at hex
      exact .const hex
    · exact .load hn hex
  | const h ih =>
    simp only [onlyLoadedIn, Bool.and_eq_true] at hss
    obtain ⟨hex, hkeep⟩ := ih hss.2 hargs hc hleft
    exact ⟨.const hex, hkeep⟩
  | compute h ih =>
    simp only [onlyLoadedIn, Bool.and_eq_true] at hss
    obtain ⟨hex, hkeep⟩ := ih hss.2 hargs hc hleft
    exact ⟨.compute hex, hkeep⟩
  | store hs h ih =>
    simp only [onlyLoadedIn, onlyLoadedBy, Bool.and_eq_true, decide_eq_true_eq] at hss
    rw [LeftBy.cons_iff] at hleft
    -- the target is set aside, so the write leaves the scalar
    have hm := (store_leaves hargs hss.1.1 hs hleft.1).trans hc
    obtain ⟨hex, hheld, hc'⟩ := ih hss.2 hargs hm hleft.2
    exact ⟨.store hs hex, hheld.cons hc hm, hc'⟩
  | leak h ih =>
    simp only [onlyLoadedIn, Bool.and_eq_true] at hss
    obtain ⟨hex, hkeep⟩ := ih hss.2 hargs hc hleft
    exact ⟨.leak hex, hkeep⟩
  | @branch args d t e ss env m log out h ih =>
    simp only [onlyLoadedIn, onlyLoadedBy, Bool.and_eq_true] at hss
    have htaken : onlyLoadedIn sym path ((if d.eval env then t else e) ++ ss) = true := by
      rw [onlyLoadedIn_append]
      split_ifs
      · simp [hss]
      · simp [hss]
    obtain ⟨hex, hkeep⟩ := ih htaken hargs hc hleft
    refine ⟨.branch ?_, hkeep⟩
    rw [replaceAll_append, apply_ite (replaceAll sym path c)] at hex
    exact hex
  | @again args d b ss env m log out hd h ih =>
    have hbody : onlyLoadedIn sym path (b ++ .loop d b :: ss) = true := by
      rw [onlyLoadedIn_append, hss, Bool.and_true]
      simp only [onlyLoadedIn, onlyLoadedBy, Bool.and_eq_true] at hss
      exact hss.1
    obtain ⟨hex, hkeep⟩ := ih hbody hargs hc hleft
    refine ⟨.again hd ?_, hkeep⟩
    rw [replaceAll_append] at hex
    exact hex
  | left hd h ih =>
    simp only [onlyLoadedIn, Bool.and_eq_true] at hss
    obtain ⟨hex, hkeep⟩ := ih hss.2 hargs hc hleft
    exact ⟨.left hd hex, hkeep⟩
  | @call args g xs ss body env env₁ m m₁ log log' out hg hbody h ihbody ih =>
    simp only [onlyLoadedIn, onlyLoadedBy, Bool.and_eq_true, all_eq_true, decide_eq_true_eq] at hss
    rw [LeftBy.append_iff] at hleft
    have hb := onlyLoaded_body hM hg
    obtain ⟨hex₁, hheld₁, hm₁⟩ := ihbody hb (fun n l => actuals_apart hargs hss.1) hc hleft.1
    obtain ⟨hex, hheld, hc'⟩ := ih hss.2 hargs (hm₁ _ rfl) hleft.2
    exact ⟨.call (map_some hg _) hex₁ hex, hheld₁.append hheld, hc'⟩
  | @callStopped args g xs ss body env m log hg hbody ihbody =>
    simp only [onlyLoadedIn, onlyLoadedBy, Bool.and_eq_true, all_eq_true, decide_eq_true_eq] at hss
    have hb := onlyLoaded_body hM hg
    obtain ⟨hex, hkeep⟩ := ihbody hb (fun n l => actuals_apart hargs hss.1) hc hleft
    exact ⟨.callStopped (map_some hg _) hex, hkeep⟩
  | @external args g xs ss env m m₁ log out hg h ih =>
    simp only [onlyLoadedIn, Bool.and_eq_true] at hss
    rw [LeftBy.cons_iff] at hleft
    have hm := (hleft.1 trivial).trans hc
    obtain ⟨hex, hheld, hc'⟩ := ih hss.2 hargs hm hleft.2
    exact ⟨.external (map_none hg _) hex, hheld.cons hc hm, hc'⟩

end Replace

/-! ## The fold -/

theorem foldIfs_append (ss ts : List Stmt) : foldIfs (ss ++ ts) = foldIfs ss ++ foldIfs ts := by
  induction ss with
  | nil => rfl
  | cons s ss ih => simp only [cons_append, foldIfs, ih, append_assoc]

/-- **An execution with the branches folded**: the branch of a literal is the one that is taken. -/
theorem Exec.fold {W : World} {ss : List Stmt} {m : Memory}
    {out : Option (Env × Memory)} (h : Exec W M args ss env m log out) :
    Exec W (M.map foldIfs) args (foldIfs ss) env m log out := by
  induction h with
  | done => exact .done
  | stopped => exact .stopped
  | load hn h ih => exact .load hn ih
  | const h ih => exact .const ih
  | compute h ih => exact .compute ih
  | store hs h ih => exact .store hs ih
  | leak h ih => exact .leak ih
  | @branch args d t e ss env m log out h ih =>
    rw [foldIfs_append, apply_ite foldIfs] at ih
    cases d with
    | lit b => exact ih
    | val v => exact .branch ih
  | again hd h ih =>
    rw [foldIfs_append] at ih
    exact .again hd ih
  | left hd h ih => exact .left hd ih
  | call hg hbody h ihbody ih => exact .call (map_some hg _) ihbody ih
  | callStopped hg hbody ihbody => exact .callStopped (map_some hg _) ihbody
  | external hg h ih => exact .external (map_none hg _) ih

/-! ## Runs of the procedures -/

section Rounds

variable {W : World} {f : ℕ} {args : ℕ → Location → Prop} {m : Memory} {last : Option Memory}
    {log : List Write}

variable {M : Module}

theorem Runs.fold (h : Runs W M f args m log last) :
    Runs W (M.map foldIfs) f args m log last := by
  obtain ⟨body, out, hf, hlast, hex⟩ := h
  exact ⟨foldIfs body, out, map_some hf _, hlast, hex.fold⟩

/-- The fold over all procedures, again and again, keeps the runs. -/
theorem Runs.foldConstantBranches {P : Compiler} (hf : P.callable f) (M : Module)
    (h : Runs W M f args m log last) : Runs W (foldConstantBranches P M) f args m log last := by
  have hfold := (P.canonicalize_runs W M f args m log last hf h).fold
  rw [SpecializeGlobals.foldConstantBranches]
  split_ifs with hlt
  · exact Runs.foldConstantBranches hf _ hfold
  · exact hfold
termination_by ifCount M
decreasing_by exact Nat.lt_of_lt_of_le hlt (P.canonicalize_ifs M)

/-- The memory holds the value given with a key. -/
def Key.Given (key : Key) (W : World) (m : Memory) : Prop :=
  ∀ path c, key.path = some path → key.value = some c → m (scalarAt W key.sym path) = c

/-- What the writes stray to leaves the scalar of a key. -/
def Key.LeftBy (key : Key) (W : World) (log : List Write) : Prop :=
  ∀ path, key.path = some path → SpecializeGlobals.LeftBy (scalarAt W key.sym path) log

/-- The scalar of a key holds its value around every write. -/
def Key.HeldBy (key : Key) (W : World) (log : List Write) : Prop :=
  ∃ path c, key.path = some path ∧ key.value = some c ∧
    SpecializeGlobals.HeldBy (scalarAt W key.sym path) c log

theorem Runs.replace {sym : Name} {path : ScalarPath} {c : ℤ}
    (hM : onlyLoaded sym path M = true) (hc : m (scalarAt W sym path) = c)
    (hleft : SpecializeGlobals.LeftBy (scalarAt W sym path) log) (h : Runs W M f args m log last) :
    Runs W (M.map (replaceAll sym path c)) f args m log last ∧
      SpecializeGlobals.HeldBy (scalarAt W sym path) c log := by
  obtain ⟨body, out, hf, hlast, hex⟩ := h
  have hbody := onlyLoaded_body hM hf
  obtain ⟨hex', hheld, -⟩ := hex.replace hM hbody (fun n l hn => by cases hn.2) hc hleft
  exact ⟨⟨replaceAll sym path c body, out, map_some hf _, hlast, hex'⟩, hheld⟩

/-- One key keeps the runs, and where it replaces a load the scalar holds the value all along. -/
theorem Runs.applyKey {key : Key} (hgiven : key.Given W m) (hleft : key.LeftBy W log)
    (h : Runs W M f args m log last) :
    Runs W (applyKey M key).1 f args m log last ∧
      ((applyKey M key).2.2 = true → key.HeldBy W log) := by
  unfold SpecializeGlobals.applyKey
  split
  · exact ⟨h, fun hr => by cases hr⟩
  · rename_i path hpath
    -- the module changes only where nothing but loads comes near the scalar
    split_ifs with hmentions hscalar honly
    · exact ⟨h, fun hr => by cases hr⟩
    · exact ⟨h, fun hr => by cases hr⟩
    · exact ⟨h, fun hr => by cases hr⟩
    · split
      · exact ⟨h, fun hr => by cases hr⟩
      · rename_i c hvalue
        have honly' : onlyLoaded key.sym path M = true := by simpa using honly
        obtain ⟨hruns, hheld⟩ := h.replace honly' (hgiven path c hpath hvalue) (hleft path hpath)
        exact ⟨hruns, fun _ => ⟨path, c, hpath, hvalue, hheld⟩⟩

/-- One round keeps the runs. -/
theorem Runs.round {keys : List Key} (hgiven : ∀ key ∈ keys, key.Given W m)
    (hleft : ∀ key ∈ keys, key.LeftBy W log) (h : Runs W M f args m log last) :
    Runs W (round M keys).module f args m log last ∧
      ∀ key ∈ (round M keys).replaced, key.HeldBy W log := by
  induction keys generalizing M with
  | nil => exact ⟨h, fun key hk => by cases hk⟩
  | cons key keys ih =>
    obtain ⟨hruns, hheld⟩ := h.applyKey (hgiven key (.head _)) (hleft key (.head _))
    obtain ⟨hruns', hheld'⟩ :=
      ih (fun k hk => hgiven k (.tail _ hk)) (fun k hk => hleft k (.tail _ hk)) hruns
    refine ⟨hruns', ?_⟩
    intro k hk
    simp only [SpecializeGlobals.round] at hk
    split_ifs at hk with hr
    · rcases mem_cons.1 hk with rfl | hk
      · exact hheld hr
      · exact hheld' k hk
    · exact hheld' k hk

/-- The keys left are some of the keys. -/
theorem round_left_subset (M : Module) (keys : List Key) :
    ∀ key ∈ (round M keys).left, key ∈ keys := by
  induction keys generalizing M with
  | nil => exact fun key hk => hk
  | cons key keys ih =>
    intro k hk
    simp only [round] at hk
    split_ifs at hk
    · exact .tail _ (ih _ k hk)
    · rcases mem_cons.1 hk with rfl | hk
      · exact .head _
      · exact .tail _ (ih _ k hk)

/-- All rounds keep the runs. -/
theorem Runs.rounds {P : Compiler} (hf : P.callable f) (M : Module) (keys : List Key)
    (hgiven : ∀ key ∈ keys, key.Given W m) (hleft : ∀ key ∈ keys, key.LeftBy W log)
    (h : Runs W M f args m log last) :
    Runs W (rounds P M keys).module f args m log last ∧
      ∀ key ∈ (rounds P M keys).replaced, key.HeldBy W log := by
  induction M, keys using SpecializeGlobals.rounds.induct P with
  | case1 M keys r hnone =>
    obtain ⟨hruns, hheld⟩ := h.round hgiven hleft
    rw [SpecializeGlobals.rounds, if_pos hnone]
    exact ⟨hruns.foldConstantBranches hf _, hheld⟩
  | case2 M keys r hsome ih =>
    obtain ⟨hruns, hheld⟩ := h.round hgiven hleft
    have hnext := P.dropUncalled_runs W _ f args m log last hf (hruns.foldConstantBranches hf _)
    obtain ⟨hruns', hheld'⟩ := ih (fun k hk => hgiven k (round_left_subset M keys k hk))
      (fun k hk => hleft k (round_left_subset M keys k hk)) hnext
    rw [SpecializeGlobals.rounds, if_neg hsome]
    refine ⟨hruns', ?_⟩
    intro k hk
    rcases mem_append.1 hk with hk | hk
    · exact hheld k hk
    · exact hheld' k hk

/-- **Specialisation is sound where no write strays to a scalar that is given**: from a memory with
the values given, every run of a procedure that can be called is one of the specialised module, with
the same writes, and each scalar whose loads were replaced holds its value all along. -/
theorem specializeGlobals_preserves (P : Compiler) (M : Module) (keys : List Key)
    (hf : P.callable f)
    (hgiven : ∀ key ∈ keys, key.Given W m) (hleft : ∀ key ∈ keys, key.LeftBy W log)
    (h : Runs W M f args m log last) :
    Runs W (specializeGlobals P M keys).module f args m log last ∧
      ∀ key ∈ (specializeGlobals P M keys).replaced, key.HeldBy W log :=
  (P.dropUncalled_runs W M f args m log last hf h).rounds hf _ keys hgiven hleft

end Rounds

/-! ## An array bound from an element on -/

instance (w l : Location) : Decidable (w.Covers l) :=
  inferInstanceAs (Decidable (w.root = l.root ∧ w.path <+: l.path))

/-- The memory after a store to one location. -/
def written (w : Location) (x : ℤ) (m : Memory) : Memory := fun l => if w.Covers l then x else m l

theorem stores_written {named : Location → Prop} {w : Location} (h : ∀ l, named l ↔ l = w) (x : ℤ)
    (m : Memory) : Stores named (fun _ => x) m (written w x m) := by
  intro l
  constructor
  · rintro ⟨w', hw', hc⟩
    rw [(h w').1 hw'] at hc
    exact if_pos hc
  · intro hno
    refine if_neg fun hc => hno ⟨w, (h w).2 rfl, hc⟩

/-- A compiler that has nothing to do. -/
def idle : Compiler where
  callable := fun _ => True
  canonicalize := id
  dropUncalled := id
  canonicalize_runs := fun _ _ _ _ _ _ _ _ h => h
  dropUncalled_runs := fun _ _ _ _ _ _ _ _ h => h
  canonicalize_ifs := fun _ => Nat.le_refl _

theorem foldConstantBranches_idle (h : ifCount M = 0) :
    foldConstantBranches idle M = M.map foldIfs := by
  rw [foldConstantBranches]
  refine if_neg ?_
  show ¬ ifCount (M.map foldIfs) < ifCount M
  omega

/-- `real a(4)` and its elements, from one on. -/
def arrayA : Address := .declare (.addrOf ['a']) (some [(.lit 1, .lit 4)])

def elementA (k : ℤ) : Address := .designate arrayA none [.scalar (.lit k)] false false

/-- The second element of a dummy `b(2)` of an inlined call `s(a(2))`. -/
def pastA : Address :=
  .designate (.declare (.convert (elementA 2)) (some [(.lit 1, .lit 2)])) none
    [.scalar (.lit 2)] false false

def keyA : Key := ⟨['a'], some ⟨some 3, none⟩, true, some 5⟩

/-- `r = a(3)` -/
def readA : List Stmt := [.load 0 (elementA 3), .store (.addrOf ['r']) none fun env _ _ => env 0]

/-- The same after a store to the second element of the dummy. -/
def writtenPast : List Stmt := .store pastA none (fun _ _ _ => 7) :: readA

def fromOne : World := ⟨fun _ => 1, fun _ _ => False⟩

def atA : Location := ⟨.sym ['a'], [.element [2]]⟩

def atR : Location := ⟨.sym ['r'], []⟩

def fives : Memory := fun _ => 5

theorem names_elementA {k : ℤ} :
    Names fromOne args env (elementA k) l stray ↔ l = ⟨.sym ['a'], [.element [k - 1]]⟩ ∧
      stray = false := by
  constructor
  · rintro ⟨base, before, ⟨⟨rfl, rfl⟩, -⟩, off, hoff, rfl, rfl⟩
    rw [takesOffset_literal (hoff _ rfl)]
    exact ⟨rfl, rfl⟩
  · rintro ⟨rfl, rfl⟩
    refine ⟨⟨.sym ['a'], []⟩, false, ⟨⟨rfl, rfl⟩, ?_⟩, k - 1, ?_, rfl, rfl⟩
    · intro s i n _ hi
      cases hi
      rfl
    · intro dims hdims
      cases hdims
      exact ⟨k - 1, 0, by show k - 1 + 1 = k; omega, rfl, by omega⟩

theorem names_pastA :
    Names fromOne args env pastA l stray ↔ l = atA ∧ stray = true := by
  constructor
  · rintro ⟨base, before, ⟨hbase, -⟩, hl⟩
    obtain ⟨rfl, rfl⟩ := names_elementA.1 hbase
    obtain ⟨off, hoff, rfl, rfl⟩ := hl
    rw [takesOffset_literal (hoff _ rfl)]
    exact ⟨rfl, rfl⟩
  · rintro ⟨rfl, rfl⟩
    refine ⟨⟨.sym ['a'], [.element [1]]⟩, false, ⟨names_elementA.2 ⟨rfl, rfl⟩, ?_⟩, 1, ?_, rfl, rfl⟩
    · intro s i n hs
      cases hs
    · intro dims hdims
      cases hdims
      exact ⟨1, 0, rfl, rfl, rfl⟩

theorem names_r :
    (∃ stray, Names fromOne args env (.addrOf ['r']) l stray) ↔ l = atR := by
  constructor
  · rintro ⟨stray, rfl, -⟩
    rfl
  · rintro rfl
    exact ⟨false, rfl, rfl⟩

/-- `r = a(3)` runs, and `r` is what `a(3)` holds. -/
theorem readA_runs (M : Module) (args : Args) (env : Env) (m : Memory) :
    ∃ log env', Exec fromOne M args readA env m log (some (env', written atR (m atA) m)) ∧
      ∀ w ∈ log, w.strays atA → False := by
  refine ⟨_, _, .load (names_elementA.2 ⟨rfl, rfl⟩)
    (.store (stores_written (fun l => names_r) _ m) .done), ?_⟩
  intro w hw
  rw [mem_singleton] at hw
  rw [hw]
  rintro ⟨l, ⟨-, hs⟩, -⟩
  cases hs

/-- `r = 5` -/
def readFive : List Stmt := [.const 0 5, .store (.addrOf ['r']) none fun env _ _ => env 0]

def fivePast : List Stmt := .store pastA none (fun _ _ _ => 7) :: readFive

/-- A round that replaces loads of the only key, and the last one. -/
theorem specializeGlobals_idle {M M' : Module} {key : Key}
    (hround : round M [key] = ⟨M', [], [key]⟩)
    (hifs : ifCount M' = 0) (hfold : M'.map foldIfs = M') :
    specializeGlobals idle M [key] = ⟨M', [], [key]⟩ := by
  have hbranches : foldConstantBranches idle M' = M' := (foldConstantBranches_idle hifs).trans hfold
  have hlast : rounds idle M' [] = ⟨M', [], []⟩ := by
    rw [rounds]
    simp only [round, hbranches, if_true]
  show rounds idle M [key] = _
  rw [rounds]
  simp only [hround, hbranches, if_neg (cons_ne_nil key [])]
  rw [show idle.dropUncalled M' = M' from rfl, hlast]
  rfl

theorem specialized_readA : specializeGlobals idle [readA] [keyA] = ⟨[readFive], [], [keyA]⟩ :=
  specializeGlobals_idle rfl rfl rfl

theorem specialized_writtenPast :
    specializeGlobals idle [writtenPast] [keyA] = ⟨[fivePast], [], [keyA]⟩ :=
  specializeGlobals_idle rfl rfl rfl

theorem specializeGlobals_preserves_read :
    ∃ log, Runs fromOne [readFive] 0 (fun _ _ => False) fives log (some (written atR 5 fives)) ∧
      keyA.HeldBy fromOne log := by
  obtain ⟨log, env, hex, hlog⟩ :=
    readA_runs [readA] (fun _ _ stray => False ∧ stray = true) (fun _ => 0) fives
  have hgiven : ∀ key ∈ [keyA], key.Given fromOne fives := by
    intro key hkey path c hpath hvalue
    rw [List.mem_singleton] at hkey
    subst hkey
    cases hvalue
    rfl
  have hleft : ∀ key ∈ [keyA], key.LeftBy fromOne log := by
    intro key hkey path hpath w hw hstrays
    rw [List.mem_singleton] at hkey
    subst hkey
    cases hpath
    exact (hlog w hw hstrays).elim
  have hrun : Runs fromOne [readA] 0 (fun _ _ => False) fives log (some (written atR 5 fives)) :=
    ⟨readA, _, rfl, rfl, hex⟩
  obtain ⟨hruns, hheld⟩ := specializeGlobals_preserves idle [readA] [keyA] trivial hgiven hleft hrun
  rw [specialized_readA] at hruns hheld
  exact ⟨log, hruns, hheld keyA (.head _)⟩

/-- A store to `b(2)`, `b` bound to `a(2)`, goes to `a(3)`; the pass takes `a(2)` for other storage
and replaces the load of `a(3)` all the same. -/
theorem not_preserved_writtenPast :
    keyA.Given fromOne fives ∧
      ∃ log, Runs fromOne [writtenPast] 0 (fun _ _ => False) fives log
        (some (written atR 7 (written atA 7 fives))) ∧
        ¬ Runs fromOne (specializeGlobals idle [writtenPast] [keyA]).module 0
          (fun _ _ => False) fives log
          (some (written atR 7 (written atA 7 fives))) := by
  constructor
  · intro path c hpath hvalue
    cases hvalue
    rfl
  · obtain ⟨log, env, hex, -⟩ :=
      readA_runs [writtenPast] (fun _ _ stray => False ∧ stray = true) (fun _ => 0)
        (written atA 7 fives)
    refine ⟨_, ⟨writtenPast, _, rfl, rfl, .store (stores_written ?_ 7 fives) hex⟩, ?_⟩
    · intro l
      constructor
      · rintro ⟨stray, hn⟩
        exact (names_pastA.1 hn).1
      · rintro rfl
        exact ⟨true, names_pastA.2 ⟨rfl, rfl⟩⟩
    · rw [specialized_writtenPast]
      rintro ⟨body, out, hbody, hlast, hrun⟩
      cases hbody
      cases hrun with
      | store _ hrun =>
        cases hrun with
        | stopped => cases hlast
        | const hrun =>
          cases hrun with
          | stopped => cases hlast
          | @store _ _ _ _ _ _ _ m' _ _ hs hrun =>
            -- the last store of the specialised procedure is of the constant
            have hr := (hs atR).1 ⟨atR, names_r.2 rfl, rfl, List.prefix_refl _⟩
            cases hrun with
            | stopped => cases hlast
            | done =>
              have hm : written atR 7 (written atA 7 fives) = m' := Option.some.inj hlast
              rw [← hm] at hr
              exact absurd hr (by decide)

end SpecializeGlobals
