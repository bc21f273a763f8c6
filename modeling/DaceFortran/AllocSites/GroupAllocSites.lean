/-
# `groupAllocSites`

How `bridge/extract_vars.cpp` partitions the `ALLOCATE` statements of one
allocatable into buffers: a walk over the structured body of a function that
tracks the sites the buffer may come from, and unites those that meet at the end
of an `IF`.
-/
import DaceFortran.Lib.UnionFind
import Mathlib.Data.List.Sort

open UnionFind List

namespace AllocSites

/-! ## Function bodies -/

/-- What the walk distinguishes in a body; a block is a sequence, an `IF` without `ELSE` has
`skip` for it, `region` is any other operation with a region: a loop.  Operations are numbered. -/
inductive Stmt where
  | skip
  | seq (s t : Stmt)
  | allocmem (op : ℕ) (uniqName : String)
  | access (op : ℕ) (declName : String)
  | deallocate (declName : String)
  | ifOp (op : ℕ) (thenRegion elseRegion : Stmt)
  | region (body : Stmt)

/-- `module.walk` over `fir.allocmem`, with its `uniq_name`. -/
def Stmt.allocs : Stmt → List (ℕ × String)
  | .seq s t => s.allocs ++ t.allocs
  | .allocmem op uniqName => [(op, uniqName)]
  | .ifOp _ s t => s.allocs ++ t.allocs
  | .region body => body.allocs
  | _ => []

/-- The operations that are an `IF`. -/
def Stmt.ifs : Stmt → List ℕ
  | .seq s t => s.ifs ++ t.ifs
  | .ifOp op s t => s.ifs ++ t.ifs ++ [op]
  | .region body => body.ifs
  | _ => []

/-- A function body, in which operations are told apart. -/
structure Body where
  stmt : Stmt
  allocs_nodup : (stmt.allocs.map Prod.fst).Nodup
  ifs_nodup : stmt.ifs.Nodup

/-- `collectAllocSites`. -/
def collectAllocSites (declName : String) (b : Body) : List ℕ :=
  if declName = "" then []
  else (b.stmt.allocs.filter fun a => a.2 = declName ++ ".alloc").map Prod.fst

/-- `idxOf.find`. -/
def siteIndex (sites : List ℕ) (op : ℕ) : Option ℕ :=
  if op ∈ sites then some (sites.idxOf op) else none

/-! ## The walk -/

/-- `std::set<unsigned>`, in ascending order. -/
abbrev Reaching := List ℕ

/-- `insert` of a range. -/
def Reaching.insertAll (s t : Reaching) : Reaching :=
  t.foldl (fun s x => if x ∈ s then s else s.orderedInsert (· ≤ ·) x) s

/-- What is united at the end of an `IF`: the first site with every other. -/
def mergedPairs (t e : Reaching) : List (ℕ × ℕ) :=
  if t = [] ∨ e = [] then []
  else
    match t ++ e with
    | [] => []
    | x :: all => all.map (x, ·)

/-- `walk`: from the sites that reach a statement, those that reach its end. -/
def walk (idxOf : ℕ → Option ℕ) : Stmt → Reaching × Forest ℕ → Reaching × Forest ℕ
  | .skip, r => r
  | .seq s t, r => walk idxOf t (walk idxOf s r)
  | .allocmem op _, (reaching, F) =>
    match idxOf op with
    | some i => ([i], F)
    | none => (reaching, F)
  | .access _ _, r => r
  | .deallocate _, r => r
  | .ifOp _ s t, (reaching, F) =>
    let rt := walk idxOf s (reaching, F)
    let re := walk idxOf t (reaching, rt.2)
    (Reaching.insertAll rt.1 re.1, re.2.uniteAll (mergedPairs rt.1 re.1))
  | .region body, r => walk idxOf body r

/-! ## The groups -/

/-- `byRoot[r].push_back(i)`, in a `std::map` by root. -/
def pushByRoot (r i : ℕ) : List (ℕ × List ℕ) → List (ℕ × List ℕ)
  | [] => [(r, [i])]
  | (r', l) :: m =>
    if r = r' then (r', l ++ [i]) :: m
    else if r < r' then (r, [i]) :: (r', l) :: m
    else (r', l) :: pushByRoot r i m

/-- The loop that fills the map. -/
def gather (n : ℕ) (F : Forest ℕ) : List (ℕ × List ℕ) × Forest ℕ :=
  (List.range n).foldl
    (fun mF i => (pushByRoot (mF.2.find i).1 i mF.1, (mF.2.find i).2)) ([], F)

/-- The order of two classes: by their first members. -/
def byFront (g h : List ℕ) : Bool := decide (g.headD 0 ≤ h.headD 0)

/-- The partition, in the numbers of the sites. -/
def groupIndices (sites : List ℕ) (b : Body) : List (List ℕ) :=
  if sites.length = 0 then []
  else if sites.length = 1 then [[0]]
  else
    let F := (walk (siteIndex sites) b.stmt ([], Forest.singletons)).2
    ((gather sites.length F).1.map Prod.snd).insertionSort (fun g h => byFront g h)

/-- The partition of the sites of an allocatable. -/
def groupAllocSites (declName : String) (b : Body) : List (List ℕ) :=
  let sites := collectAllocSites declName b
  (groupIndices sites b).map fun g => g.map fun i => sites.getD i 0

/-! ## Executions -/

/-- What an execution shows: the site of the live buffer when an access is executed, or at the
end of an `IF`. -/
inductive Event where
  | access (op : ℕ) (live : Option ℕ)
  | joined (op : ℕ) (live : Option ℕ)
  deriving DecidableEq

/-- Which executions: how often a loop may run, and whether a `DEALLOCATE` leaves no buffer. -/
structure Mode where
  trips : ℕ → Prop
  frees : Prop

/-- The executions of a program: a loop runs any number of times. -/
def real : Mode := ⟨fun _ => True, True⟩

/-- The executions that run every loop once, seen without the `DEALLOCATE` statements. -/
def once : Mode := ⟨fun n => n = 1, False⟩

/-- From a live site, what is shown and the live site left. -/
abbrev Outcome := Option ℕ → List Event → Option ℕ → Prop

/-- One after the other. -/
def Outcome.andThen (R S : Outcome) : Outcome := fun l tr l' =>
  ∃ tr₁ l₁ tr₂, R l tr₁ l₁ ∧ S l₁ tr₂ l' ∧ tr = tr₁ ++ tr₂

/-- So many times. -/
def Outcome.times (R : Outcome) : ℕ → Outcome
  | 0 => fun l tr l' => tr = [] ∧ l' = l
  | n + 1 => R.andThen (R.times n)

/-- The executions of a statement; the sites are those of `declName`. -/
def Exec (declName : String) (m : Mode) : Stmt → Outcome
  | .skip => fun l tr l' => tr = [] ∧ l' = l
  | .seq s t => (Exec declName m s).andThen (Exec declName m t)
  | .allocmem op uniqName => fun l tr l' =>
    tr = [] ∧ l' = if uniqName = declName ++ ".alloc" then some op else l
  | .access op name => fun l tr l' =>
    tr = (if name = declName then [.access op l] else []) ∧ l' = l
  | .deallocate name => fun l tr l' =>
    tr = [] ∧ (name = declName ∧ m.frees ∧ l' = none ∨ ¬(name = declName ∧ m.frees) ∧ l' = l)
  | .ifOp op s t => fun l tr l' =>
    ∃ tr₁, (Exec declName m s l tr₁ l' ∨ Exec declName m t l tr₁ l') ∧ tr = tr₁ ++ [.joined op l']
  | .region body => fun l tr l' => ∃ n, m.trips n ∧ (Exec declName m body).times n l tr l'

/-- An execution of the body shows an event. -/
def Shows (declName : String) (m : Mode) (b : Body) (e : Event) : Prop :=
  ∃ tr l, Exec declName m b.stmt none tr l ∧ e ∈ tr

/-- Both sites can be the live buffer at one access. -/
def LiveTogether (declName : String) (b : Body) (x y : ℕ) : Prop :=
  ∃ op, Shows declName real b (.access op (some x)) ∧ Shows declName real b (.access op (some y))

/-- Both sites can be the last one executed before the end of one `IF`, where every loop runs
once. -/
def MeetAtIf (declName : String) (b : Body) (x y : ℕ) : Prop :=
  ∃ op, Shows declName once b (.joined op (some x)) ∧ Shows declName once b (.joined op (some y))

/-! ## What the partition should be -/

/-- The groups of a relation, numbered by their first members. -/
structure PartitionedBy (R : ℕ → ℕ → Prop) (sites : List ℕ) (groups : List (List ℕ)) : Prop where
  related : ∀ x ∈ sites, ∀ y ∈ sites, (∃ g ∈ groups, x ∈ g ∧ y ∈ g) ↔ R x y
  perm : groups.flatten.Perm sites
  nonempty : ∀ g ∈ groups, g ≠ []
  ascending : ∀ g ∈ groups, g.Pairwise fun x y => sites.idxOf x < sites.idxOf y
  ordered : groups.Pairwise fun g h => ∀ x ∈ g.head?, ∀ y ∈ h.head?, sites.idxOf x < sites.idxOf y

-- the equations of the walk, made once for the proofs over it
attribute [local simp] walk Exec Stmt.allocs Stmt.ifs

end AllocSites

/-
# The walk computes what single rounds reach

The set the walk threads through a statement is the set of the sites that the
executions with one round of each loop leave live, and what it unites are the
sites that meet at the end of an `IF` in them (`walk_spec`).
-/

open UnionFind

namespace AllocSites

variable {declName : String} {idxOf : ℕ → Option ℕ}

/-! ## What is left live, and what meets -/

/-- The live sites the executions from some leave. -/
def post (declName : String) (s : Stmt) (L : Option ℕ → Prop) (l' : Option ℕ) : Prop :=
  ∃ l tr, L l ∧ Exec declName once s l tr l'

/-- The number of the live site at the end of an `IF`, in an execution from one of some sites. -/
def Joined (declName : String) (idxOf : ℕ → Option ℕ) (s : Stmt) (L : Option ℕ → Prop)
    (op i : ℕ) : Prop :=
  ∃ l tr l' x, L l ∧ Exec declName once s l tr l' ∧ .joined op x ∈ tr ∧ x.bind idxOf = some i

/-- A set of the walk is that of the numbers of some live sites. -/
structure Describes (idxOf : ℕ → Option ℕ) (R : Reaching) (L : Option ℕ → Prop) : Prop where
  some_live : ∃ l, L l
  mem : ∀ i, i ∈ R ↔ ∃ l, L l ∧ l.bind idxOf = some i

theorem post_skip (declName : String) (L : Option ℕ → Prop) : post declName .skip L = L := by
  funext l'
  apply propext
  constructor
  · rintro ⟨l, tr, hl, -, rfl⟩
    exact hl
  · intro h
    exact ⟨l', [], h, rfl, rfl⟩

theorem post_access (declName : String) (op : ℕ) (name : String) (L : Option ℕ → Prop) :
    post declName (.access op name) L = L := by
  funext l'
  apply propext
  constructor
  · rintro ⟨l, tr, hl, -, rfl⟩
    exact hl
  · intro h
    exact ⟨l', _, h, rfl, rfl⟩

theorem post_deallocate (declName name : String) (L : Option ℕ → Prop) :
    post declName (.deallocate name) L = L := by
  funext l'
  apply propext
  constructor
  · rintro ⟨l, tr, hl, -, ⟨-, hfree, -⟩ | ⟨-, rfl⟩⟩
    · cases hfree
    · exact hl
  · intro h
    exact ⟨l', _, h, rfl, Or.inr ⟨fun h => h.2, rfl⟩⟩

theorem post_allocmem_other {declName name : String} (hname : name ≠ declName ++ ".alloc") (op : ℕ)
    (L : Option ℕ → Prop) : post declName (.allocmem op name) L = L := by
  rw [← post_skip declName L]
  unfold post
  simp only [Exec, if_neg hname]
  simp

theorem post_seq (s t : Stmt) (L : Option ℕ → Prop) :
    post declName (.seq s t) L = post declName t (post declName s L) := by
  funext l'
  apply propext
  constructor
  · rintro ⟨l, tr, hl, tr₁, l₁, tr₂, h₁, h₂, -⟩
    exact ⟨l₁, tr₂, ⟨l, tr₁, hl, h₁⟩, h₂⟩
  · rintro ⟨l₁, tr₂, ⟨l, tr₁, hl, h₁⟩, h₂⟩
    exact ⟨l, _, hl, tr₁, l₁, tr₂, h₁, h₂, rfl⟩

theorem post_ifOp (op : ℕ) (s t : Stmt) (L : Option ℕ → Prop) (l' : Option ℕ) :
    post declName (.ifOp op s t) L l' ↔ post declName s L l' ∨ post declName t L l' := by
  constructor
  · rintro ⟨l, tr, hl, tr₁, h | h, -⟩
    · exact Or.inl ⟨l, tr₁, hl, h⟩
    · exact Or.inr ⟨l, tr₁, hl, h⟩
  · rintro (⟨l, tr, hl, h⟩ | ⟨l, tr, hl, h⟩)
    · exact ⟨l, _, hl, tr, Or.inl h, rfl⟩
    · exact ⟨l, _, hl, tr, Or.inr h, rfl⟩

/-- A loop that runs once is its body. -/
theorem exec_region (body : Stmt) :
    Exec declName once (.region body) = Exec declName once body := by
  funext l tr l'
  apply propext
  simp only [Exec]
  constructor
  · rintro ⟨n, rfl, tr₁, l₁, tr₂, h, ⟨rfl, rfl⟩, rfl⟩
    rwa [append_nil]
  · intro h
    exact ⟨1, rfl, tr, l', [], h, ⟨rfl, rfl⟩, (append_nil tr).symm⟩

theorem post_region (body : Stmt) (L : Option ℕ → Prop) :
    post declName (.region body) L = post declName body L := by
  unfold post
  rw [exec_region]

theorem joined_region (body : Stmt) (L : Option ℕ → Prop) :
    Joined declName idxOf (.region body) L = Joined declName idxOf body L := by
  unfold Joined
  rw [exec_region]

/-- Some execution runs every loop once. -/
theorem exists_exec (s : Stmt) (l : Option ℕ) : ∃ tr l', Exec declName once s l tr l' := by
  induction s generalizing l with
  | skip => exact ⟨[], l, rfl, rfl⟩
  | seq s t ihs iht =>
    obtain ⟨tr₁, l₁, h₁⟩ := ihs l
    obtain ⟨tr₂, l₂, h₂⟩ := iht l₁
    exact ⟨_, l₂, tr₁, l₁, tr₂, h₁, h₂, rfl⟩
  | allocmem op name => exact ⟨[], _, rfl, rfl⟩
  | access op name => exact ⟨_, l, rfl, rfl⟩
  | deallocate name => exact ⟨[], l, rfl, Or.inr ⟨fun h => h.2, rfl⟩⟩
  | ifOp op s t ihs _ =>
    obtain ⟨tr, l', h⟩ := ihs l
    exact ⟨_, l', tr, Or.inl h, rfl⟩
  | region body ih =>
    rw [exec_region]
    exact ih l

variable {L : Option ℕ → Prop}

theorem joined_seq {s t : Stmt} (op i : ℕ) :
    Joined declName idxOf (.seq s t) L op i ↔
      Joined declName idxOf s L op i ∨ Joined declName idxOf t (post declName s L) op i := by
  constructor
  · rintro ⟨l, tr, l', x, hl, ⟨tr₁, l₁, tr₂, h₁, h₂, rfl⟩, hx, hi⟩
    rcases mem_append.mp hx with hx | hx
    · exact Or.inl ⟨l, tr₁, l₁, x, hl, h₁, hx, hi⟩
    · exact Or.inr ⟨l₁, tr₂, l', x, ⟨l, tr₁, hl, h₁⟩, h₂, hx, hi⟩
  · rintro (⟨l, tr₁, l₁, x, hl, h₁, hx, hi⟩ | ⟨l₁, tr₂, l', x, ⟨l, tr₁, hl, h₁⟩, h₂, hx, hi⟩)
    · obtain ⟨tr₂, l₂, h₂⟩ := exists_exec t l₁
      exact ⟨l, _, l₂, x, hl, ⟨tr₁, l₁, tr₂, h₁, h₂, rfl⟩, mem_append_left _ hx, hi⟩
    · exact ⟨l, _, l', x, hl, ⟨tr₁, l₁, tr₂, h₁, h₂, rfl⟩, mem_append_right _ hx, hi⟩

theorem joined_ifOp {op' : ℕ} {s t : Stmt} (op i : ℕ) :
    Joined declName idxOf (.ifOp op' s t) L op i ↔
      Joined declName idxOf s L op i ∨ Joined declName idxOf t L op i ∨
        (op = op' ∧ ∃ l, post declName (.ifOp op' s t) L l ∧ l.bind idxOf = some i) := by
  constructor
  · rintro ⟨l, tr, l', x, hl, ⟨tr₁, h, rfl⟩, hx, hi⟩
    rcases mem_append.mp hx with hx | hx
    · rcases h with h | h
      · exact Or.inl ⟨l, tr₁, l', x, hl, h, hx, hi⟩
      · exact Or.inr (Or.inl ⟨l, tr₁, l', x, hl, h, hx, hi⟩)
    · obtain ⟨rfl, rfl⟩ := Event.joined.inj (mem_singleton.mp hx)
      exact Or.inr (Or.inr ⟨rfl, x, ⟨l, _, hl, tr₁, h, rfl⟩, hi⟩)
  · rintro (⟨l, tr, l', x, hl, h, hx, hi⟩ | ⟨l, tr, l', x, hl, h, hx, hi⟩ |
      ⟨rfl, l', ⟨l, tr, hl, tr₁, h, rfl⟩, hi⟩)
    · exact ⟨l, _, l', x, hl, ⟨tr, Or.inl h, rfl⟩, mem_append_left _ hx, hi⟩
    · exact ⟨l, _, l', x, hl, ⟨tr, Or.inr h, rfl⟩, mem_append_left _ hx, hi⟩
    · exact ⟨l, _, l', l', hl, ⟨tr₁, h, rfl⟩,
        mem_append_right _ (mem_singleton_self _), hi⟩

variable {s : Stmt} {a b : ℕ} {F : Forest ℕ}

/-- An `IF` that is shown is one of the statement. -/
theorem joined_mem_ifs {m : Mode} {op : ℕ} {x : Option ℕ} :
    ∀ {l tr l'}, Exec declName m s l tr l' → .joined op x ∈ tr → op ∈ s.ifs := by
  induction s with
  | skip =>
    rintro l tr l' ⟨rfl, -⟩ hx
    cases hx
  | seq s t ihs iht =>
    rintro l tr l' ⟨tr₁, l₁, tr₂, h₁, h₂, rfl⟩ hx
    rcases mem_append.mp hx with hx | hx
    · exact mem_append_left _ (ihs h₁ hx)
    · exact mem_append_right _ (iht h₂ hx)
  | allocmem op' name =>
    rintro l tr l' ⟨rfl, -⟩ hx
    cases hx
  | access op' name =>
    rintro l tr l' ⟨rfl, -⟩ hx
    split_ifs at hx
    · cases mem_singleton.mp hx
    · cases hx
  | deallocate name =>
    rintro l tr l' ⟨rfl, -⟩ hx
    cases hx
  | ifOp op' s t ihs iht =>
    rintro l tr l' ⟨tr₁, h, rfl⟩ hx
    rcases mem_append.mp hx with hx | hx
    · rcases h with h | h
      · exact mem_append_left _ (mem_append_left _ (ihs h hx))
      · exact mem_append_left _ (mem_append_right _ (iht h hx))
    · obtain ⟨rfl, -⟩ := Event.joined.inj (mem_singleton.mp hx)
      exact mem_append_right _ (mem_singleton_self _)
  | region body ih =>
    rintro l tr l' ⟨n, -, h⟩ hx
    induction n generalizing l tr with
    | zero =>
      obtain ⟨rfl, -⟩ := h
      cases hx
    | succ n ihn =>
      obtain ⟨tr₁, l₁, tr₂, h₁, h₂, rfl⟩ := h
      rcases mem_append.mp hx with hx | hx
      · exact ih h₁ hx
      · exact ihn h₂ hx

theorem Joined.mem_ifs {op i : ℕ}
    (h : Joined declName idxOf s L op i) : op ∈ s.ifs := by
  obtain ⟨l, tr, l', x, -, h, hx, -⟩ := h
  exact joined_mem_ifs h hx

/-! ## Sets of sites -/

theorem mem_insertAll (s t : Reaching) (i : ℕ) : i ∈ Reaching.insertAll s t ↔ i ∈ s ∨ i ∈ t := by
  unfold Reaching.insertAll
  induction t generalizing s with
  | nil => simp
  | cons x t ih =>
    rw [foldl_cons, ih]
    have hx : i ∈ (if x ∈ s then s else s.orderedInsert (· ≤ ·) x) ↔ i = x ∨ i ∈ s := by
      split_ifs with h
      · constructor
        · exact Or.inr
        · rintro (rfl | hi)
          · exact h
          · exact hi
      · exact mem_orderedInsert _
    rw [hx, mem_cons]
    tauto

variable {t e R : Reaching}

/-- What is united at the end of an `IF` reaches it. -/
theorem mem_of_mergedPairs (h : (a, b) ∈ mergedPairs t e) :
    (a ∈ t ∨ a ∈ e) ∧ (b ∈ t ∨ b ∈ e) := by
  unfold mergedPairs at h
  split_ifs at h with hempty
  · cases h
  · rw [← mem_append, ← mem_append]
    split at h
    case h_1 => cases h
    case h_2 x all hall =>
      obtain ⟨y, hy, hxy⟩ := mem_map.mp h
      obtain ⟨rfl, rfl⟩ := Prod.mk.inj hxy
      rw [hall]
      exact ⟨mem_cons_self .., mem_cons_of_mem _ hy⟩

/-- Uniting keeps what is united. -/
theorem le_uniteAll (F : Forest ℕ) (l : List (ℕ × ℕ)) (h : F.Same a b) :
    (F.uniteAll l).Same a b := by
  rw [Forest.same_uniteAll]
  exact .rel _ _ (Or.inl h)

/-- All sites that reach the end of an `IF` are united there. -/
theorem same_mergedPairs (ht : ∀ a ∈ t, ∀ b ∈ t, F.Same a b)
    (he : ∀ a ∈ e, ∀ b ∈ e, F.Same a b) (ha : a ∈ t ∨ a ∈ e) (hb : b ∈ t ∨ b ∈ e) :
    (F.uniteAll (mergedPairs t e)).Same a b := by
  by_cases hempty : t = [] ∨ e = []
  · apply le_uniteAll
    rcases hempty with rfl | rfl
    · exact he a (by simpa using ha) b (by simpa using hb)
    · exact ht a (by simpa using ha) b (by simpa using hb)
  · rcases hall : t ++ e with _ | ⟨x, all⟩
    · exact absurd (Or.inl (append_eq_nil_iff.mp hall).1) hempty
    · have hpairs : mergedPairs t e = all.map (x, ·) := by
        unfold mergedPairs
        rw [if_neg hempty, hall]
      have hone : ∀ c, c ∈ t ∨ c ∈ e → (F.uniteAll (mergedPairs t e)).Same x c := by
        intro c hc
        rw [← mem_append, hall] at hc
        rcases mem_cons.mp hc with rfl | hc
        · rfl
        · rw [Forest.same_uniteAll, hpairs]
          exact .rel _ _ (Or.inr (mem_map.mpr ⟨c, hc, rfl⟩))
      exact (hone a ha).symm.trans (hone b hb)

/-! ## The walk -/

/-- The numbered sites are those of the allocatable. -/
def Indexed (declName : String) (idxOf : ℕ → Option ℕ) (s : Stmt) : Prop :=
  ∀ a ∈ s.allocs, (idxOf a.1).isSome ↔ a.2 = declName ++ ".alloc"

/-- What a walk over a statement does to the set and to the forest. -/
structure WalkSpec (declName : String) (idxOf : ℕ → Option ℕ) (s : Stmt) (L : Option ℕ → Prop)
    (F : Forest ℕ) (r : Reaching × Forest ℕ) : Prop where
  describes : Describes idxOf r.1 (post declName s L)
  le : ∀ a b, F.Same a b → r.2.Same a b
  reach : ∀ a ∈ r.1, ∀ b ∈ r.1, r.2.Same a b
  joins : ∀ op a b, Joined declName idxOf s L op a → Joined declName idxOf s L op b → r.2.Same a b
  sound : ∀ a b, r.2.Same a b → Relation.EqvGen (fun a b => F.Same a b ∨
    ∃ op, Joined declName idxOf s L op a ∧ Joined declName idxOf s L op b) a b

/-- A statement that shows no `IF` and changes no tree. -/
theorem WalkSpec.of_no_if
    (hs : s.ifs = []) (hd : Describes idxOf R (post declName s L))
    (hR : ∀ a ∈ R, ∀ b ∈ R, F.Same a b) : WalkSpec declName idxOf s L F (R, F) where
  describes := hd
  le _ _ h := h
  reach := hR
  joins op a b ha _ := by
    have hop := ha.mem_ifs
    rw [hs] at hop
    cases hop
  sound _ _ h := .rel _ _ (Or.inl h)

/-- What two walks one after the other join is what one of them joins. -/
theorem same_of_two_walks {F G H : Forest ℕ} {p q r : ℕ → ℕ → Prop}
    (hG : ∀ a b, G.Same a b → Relation.EqvGen (fun a b => F.Same a b ∨ p a b) a b)
    (hH : ∀ a b, H.Same a b → Relation.EqvGen (fun a b => G.Same a b ∨ q a b) a b)
    (hp : ∀ a b, p a b → r a b) (hq : ∀ a b, q a b → r a b) (h : H.Same a b) :
    Relation.EqvGen (fun a b => F.Same a b ∨ r a b) a b := by
  refine eqvGen_bind ?_ (hH a b h)
  rintro a b (h | h)
  · exact Relation.EqvGen.mono (fun a b h => h.imp_right (hp a b)) a b (hG a b h)
  · exact .rel _ _ (Or.inr (hq a b h))

/-- **The walk over a statement.** -/
theorem walk_spec (hidx : Indexed declName idxOf s) (hifs : s.ifs.Nodup)
    (hd : Describes idxOf R L)
    (hR : ∀ a ∈ R, ∀ b ∈ R, F.Same a b) : WalkSpec declName idxOf s L F (walk idxOf s (R, F)) := by
  induction s generalizing L R F with
  | skip =>
    refine .of_no_if rfl ?_ hR
    rwa [post_skip]
  | seq s t ihs iht =>
    have hsplit := nodup_append.mp hifs
    have hs := ihs (fun a ha => hidx a (mem_append_left _ ha)) hsplit.1 hd hR
    have ht := iht (fun a ha => hidx a (mem_append_right _ ha)) hsplit.2.1 hs.describes hs.reach
    refine ⟨?_, ?_, ht.reach, ?_, ?_⟩
    · rw [post_seq]
      exact ht.describes
    · intro a b h
      exact ht.le a b (hs.le a b h)
    · intro op a b ha hb
      rcases (joined_seq op a).mp ha with ha | ha <;> rcases (joined_seq op b).mp hb with hb | hb
      · exact ht.le a b (hs.joins op a b ha hb)
      -- an `IF` is a part of one of the two
      · exact absurd rfl (hsplit.2.2 op ha.mem_ifs op hb.mem_ifs)
      · exact absurd rfl (hsplit.2.2 op hb.mem_ifs op ha.mem_ifs)
      · exact ht.joins op a b ha hb
    · intro a b h
      apply same_of_two_walks hs.sound ht.sound _ _ h
      · rintro a b ⟨op, ha, hb⟩
        exact ⟨op, (joined_seq op a).mpr (Or.inl ha), (joined_seq op b).mpr (Or.inl hb)⟩
      · rintro a b ⟨op, ha, hb⟩
        exact ⟨op, (joined_seq op a).mpr (Or.inr ha), (joined_seq op b).mpr (Or.inr hb)⟩
  | allocmem op name =>
    have hop : (idxOf op).isSome ↔ name = declName ++ ".alloc" := hidx _ (mem_singleton_self _)
    obtain ⟨l₀, hl₀⟩ := hd.some_live
    rcases hi : idxOf op with _ | i
    · have hname : name ≠ declName ++ ".alloc" := by
        intro h
        rw [← hop, hi] at h
        cases h
      have hwalk : walk idxOf (.allocmem op name) (R, F) = (R, F) := by
        simp only [walk, hi]
      rw [hwalk]
      refine .of_no_if rfl ?_ hR
      rwa [post_allocmem_other hname]
    · have hname : name = declName ++ ".alloc" := hop.mp (by rw [hi]; rfl)
      have hwalk : walk idxOf (.allocmem op name) (R, F) = ([i], F) := by
        simp only [walk, hi]
      rw [hwalk]
      refine .of_no_if rfl ⟨⟨some op, l₀, [], hl₀, rfl, (if_pos hname).symm⟩, ?_⟩ ?_
      · intro j
        rw [mem_singleton]
        constructor
        · rintro rfl
          exact ⟨some op, ⟨l₀, [], hl₀, rfl, (if_pos hname).symm⟩, hi⟩
        · rintro ⟨l, ⟨l', tr, -, -, rfl⟩, hl⟩
          rw [if_pos hname, Option.bind_some, hi] at hl
          exact (Option.some.inj hl).symm
      · intro a ha b hb
        rw [mem_singleton.mp ha, mem_singleton.mp hb]
        rfl
  | access op name =>
    refine .of_no_if rfl ?_ hR
    rwa [post_access]
  | deallocate name =>
    refine .of_no_if rfl ?_ hR
    rwa [post_deallocate]
  | ifOp op s t ihs iht =>
    have hsplit := nodup_append.mp (nodup_append.mp hifs).1
    have hs := ihs (fun a ha => hidx a (mem_append_left _ ha)) hsplit.1 hd hR
    have ht := iht (fun a ha => hidx a (mem_append_right _ ha)) hsplit.2.1 hd
      (fun a ha b hb => hs.le a b (hR a ha b hb))
    have hdisj := nodup_append.mp hifs
    have hmem : ∀ i, (∃ l, post declName (.ifOp op s t) L l ∧ l.bind idxOf = some i) ↔
        i ∈ (walk idxOf s (R, F)).1 ∨ i ∈ (walk idxOf t (R, (walk idxOf s (R, F)).2)).1 := by
      intro i
      rw [hs.describes.mem, ht.describes.mem, ← exists_or]
      simp only [post_ifOp, or_and_right]
    have hmeet : ∀ a b, (a ∈ (walk idxOf s (R, F)).1 ∨
      a ∈ (walk idxOf t (R, (walk idxOf s (R, F)).2)).1) →
        (b ∈ (walk idxOf s (R, F)).1 ∨ b ∈ (walk idxOf t (R, (walk idxOf s (R, F)).2)).1) →
        (walk idxOf (.ifOp op s t) (R, F)).2.Same a b := by
      intro a b ha hb
      exact same_mergedPairs (fun a ha b hb => ht.le a b (hs.reach a ha b hb)) ht.reach ha hb
    have hin : ∀ i, i ∈ (walk idxOf (.ifOp op s t) (R, F)).1 ↔ i ∈ (walk idxOf s (R, F)).1 ∨
        i ∈ (walk idxOf t (R, (walk idxOf s (R, F)).2)).1 := mem_insertAll _ _
    refine ⟨⟨?_, ?_⟩, ?_, ?_, ?_, ?_⟩
    · obtain ⟨l, hl⟩ := hs.describes.some_live
      exact ⟨l, (post_ifOp op s t L l).mpr (Or.inl hl)⟩
    · intro i
      rw [hin, hmem]
    · intro a b h
      exact le_uniteAll _ _ (ht.le a b (hs.le a b h))
    · intro a ha b hb
      exact hmeet a b ((hin a).mp ha) ((hin b).mp hb)
    · intro op' a b ha hb
      rcases (joined_ifOp op' a).mp ha with ha | ha | ⟨ho, ha⟩ <;>
        rcases (joined_ifOp op' b).mp hb with hb | hb | ⟨ho', hb⟩
      · exact le_uniteAll _ _ (ht.le a b (hs.joins op' a b ha hb))
      -- an `IF` is a part of one branch, or the one at hand
      · exact absurd rfl (hsplit.2.2 op' ha.mem_ifs op' hb.mem_ifs)
      · exact absurd ho' (hdisj.2.2 op' (mem_append_left _ ha.mem_ifs) op
          (mem_singleton_self _))
      · exact absurd rfl (hsplit.2.2 op' hb.mem_ifs op' ha.mem_ifs)
      · exact le_uniteAll _ _ (ht.joins op' a b ha hb)
      · exact absurd ho' (hdisj.2.2 op' (mem_append_right _ ha.mem_ifs) op
          (mem_singleton_self _))
      · exact absurd ho (hdisj.2.2 op' (mem_append_left _ hb.mem_ifs) op
          (mem_singleton_self _))
      · exact absurd ho (hdisj.2.2 op' (mem_append_right _ hb.mem_ifs) op
          (mem_singleton_self _))
      · exact hmeet a b ((hmem a).mp ha) ((hmem b).mp hb)
    · intro a b h
      refine eqvGen_bind ?_ ((Forest.same_uniteAll _ _ a b).mp h)
      rintro a b (h | h)
      · apply same_of_two_walks hs.sound ht.sound _ _ h
        · rintro a b ⟨op', ha, hb⟩
          exact ⟨op', (joined_ifOp op' a).mpr (Or.inl ha), (joined_ifOp op' b).mpr (Or.inl hb)⟩
        · rintro a b ⟨op', ha, hb⟩
          exact ⟨op', (joined_ifOp op' a).mpr (Or.inr (Or.inl ha)),
            (joined_ifOp op' b).mpr (Or.inr (Or.inl hb))⟩
      · obtain ⟨ha, hb⟩ := mem_of_mergedPairs h
        exact .rel _ _ (Or.inr ⟨op, (joined_ifOp op a).mpr (Or.inr (Or.inr ⟨rfl, (hmem a).mpr ha⟩)),
          (joined_ifOp op b).mpr (Or.inr (Or.inr ⟨rfl, (hmem b).mpr hb⟩))⟩)
  | region body ih =>
    have h := ih hidx hifs hd hR
    refine ⟨?_, h.le, h.reach, ?_, ?_⟩
    · rw [post_region]
      exact h.describes
    · rw [joined_region]
      exact h.joins
    · rw [joined_region]
      exact h.sound

end AllocSites
