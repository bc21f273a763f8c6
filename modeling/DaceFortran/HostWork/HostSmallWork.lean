/-
# `host_small_work`

Small top-level maps and library nodes stay on the host when no container they touch is reached by
device work.  Containers are compared by name, so a view and the array it is a view of are two.
-/
import DaceFortran.Lib.Absorb
import Mathlib.Data.List.Lex

open List

namespace HostWork

open Absorb

/-! ## The function -/

/-- The classes of data descriptors that `small` tells apart. -/
inductive DescKind
  | array
  | scalar
  | view
  | other
deriving DecidableEq

/-- `size` is `_elements`: the total size where it is a number. -/
structure Desc where
  kind : DescKind
  size : Option ℤ
  gpuStorage : Bool

/-- `trips` is `_iterations`; `inConns` are the connectors of the map's incoming edges. -/
inductive NodeKind
  | map (guid : String) (trips : Option ℤ) (inConns : List (Option String))
  | library
  | nested
  | tasklet
  | other

/-- `ends` are the roots of the memlet trees of the node's edges: the container of an access
node. -/
structure Node where
  kind : NodeKind
  inScope : Bool
  ends : List (Option String)

/-- `storage` says whose memory a name is: a view has that of the container it is a view of. -/
structure Sdfg where
  arrays : List (String × Desc)
  states : List (List Node)
  storage : String → String

def scopeData (n : Node) : Finset String := (n.ends.filterMap id).toFinset

def small (S : Sdfg) (maxElements : ℤ) (name : String) : Bool :=
  match S.arrays.lookup name with
  | none => false
  | some desc => match desc.size with
    | none => false
    | some size =>
      (desc.kind = .array ∨ desc.kind = .scalar) ∧ size ≤ maxElements ∧ desc.gpuStorage = false

def dynamicRange (inConns : List (Option String)) : Bool :=
  inConns.any fun conn => match conn with
    | none => false
    | some c => c ≠ "" ∧ ¬ "IN_".toList <+: c.toList

def smallData (S : Sdfg) (maxElements : ℤ) (n : Node) : Bool :=
  scopeData n ≠ ∅ ∧ ∀ name ∈ scopeData n, small S maxElements name = true

def isCandidate (S : Sdfg) (maxElements : ℤ) (n : Node) : Bool :=
  match n.kind with
  | .map _ trips inConns => match trips with
    | none => false
    | some k => k ≤ maxElements ∧ dynamicRange inConns = false ∧ smallData S maxElements n = true
  | .library => smallData S maxElements n
  | _ => false

structure Work where
  candidates : List Node
  tasklets : List (Finset String)
  device : Finset String

def collect (S : Sdfg) (maxElements : ℤ) (w : Work) (n : Node) : Work :=
  if n.inScope then w
  else match n.kind with
    | .map _ _ _ | .library =>
      if isCandidate S maxElements n then { w with candidates := w.candidates ++ [n] }
      else { w with device := w.device ∪ scopeData n }
    | .nested => { w with device := w.device ∪ scopeData n }
    | .tasklet => { w with tasklets := w.tasklets ++ [scopeData n] }
    | .other => w

def gpuNames (S : Sdfg) : Finset String :=
  ((S.arrays.filter fun q => q.2.gpuStorage).map Prod.fst).toFinset

def collected (S : Sdfg) (maxElements : ℤ) : Work :=
  S.states.flatten.foldl (collect S maxElements) ⟨[], [], gpuNames S⟩

def Work.units (w : Work) : List (Finset String) := w.tasklets ++ w.candidates.map scopeData

def guidOf (n : Node) : Option String :=
  match n.kind with
  | .map guid _ _ => some guid
  | _ => none

/-- The host maps and the host containers. -/
def hostSmallWork (S : Sdfg) (maxElements : ℤ) : List String × Finset String :=
  if maxElements ≤ 0 then ([], ∅)
  else
    let w := collected S maxElements
    let device := loop w.units w.device
    let hostNodes := w.candidates.filter fun n => scopeData n ∩ device = ∅
    let hostData := total (hostNodes.map scopeData)
    (hostNodes.filterMap guidOf, hostData ∪ total (w.tasklets.filter fun data => data ∩ device = ∅))

/-! ## What was collected -/

/-- The top-level nodes. -/
def topNodes (S : Sdfg) : List Node := S.states.flatten.filter fun n => !n.inScope

def isTasklet (n : Node) : Bool :=
  match n.kind with
  | .tasklet => true
  | _ => false

/-- What runs on the device whatever the others do. -/
def isDevice (S : Sdfg) (maxElements : ℤ) (n : Node) : Bool :=
  match n.kind with
  | .map _ _ _ | .library => !isCandidate S maxElements n
  | .nested => true
  | _ => false

/-- The work of a list of top-level nodes. -/
def Work.Of (S : Sdfg) (maxElements : ℤ) (nodes : List Node) (w : Work) : Prop :=
  w.candidates = nodes.filter (isCandidate S maxElements) ∧
  w.tasklets = (nodes.filter isTasklet).map scopeData ∧
  ∀ x, x ∈ w.device ↔ x ∈ gpuNames S ∨ ∃ n ∈ nodes, isDevice S maxElements n = true ∧
    x ∈ scopeData n

variable {S : Sdfg} {maxElements : ℤ}

theorem Work.Of.snoc {nodes : List Node} {w : Work}
    (h : w.Of S maxElements nodes) {n : Node} (hn : n.inScope = false) :
    (collect S maxElements w n).Of S maxElements (nodes ++ [n]) := by
  obtain ⟨hcandidates, htasklets, hdevice⟩ := h
  unfold collect
  rw [hn]
  simp only [Bool.false_eq_true, if_false]
  have hsame (hd : isDevice S maxElements n = false) (x : String) :
      x ∈ w.device ↔ x ∈ gpuNames S ∨
        ∃ m ∈ nodes ++ [n], isDevice S maxElements m = true ∧ x ∈ scopeData m := by
    rw [hdevice]
    simp [hd]
  have hmore (hd : isDevice S maxElements n = true) (x : String) :
      x ∈ w.device ∪ scopeData n ↔ x ∈ gpuNames S ∨
        ∃ m ∈ nodes ++ [n], isDevice S maxElements m = true ∧ x ∈ scopeData m := by
    rw [Finset.mem_union, hdevice]
    simp [hd, or_and_right, exists_or, or_assoc]
  cases hkind : n.kind with
  | map guid trips inConns =>
    have htasklet : isTasklet n = false := by simp [isTasklet, hkind]
    cases hc : isCandidate S maxElements n with
    | true =>
      have hd : isDevice S maxElements n = false := by simp [isDevice, hkind, hc]
      exact ⟨by simp [hcandidates, hc], by simp [htasklets, htasklet], hsame hd⟩
    | false =>
      have hd : isDevice S maxElements n = true := by simp [isDevice, hkind, hc]
      exact ⟨by simp [hcandidates, hc], by simp [htasklets, htasklet], hmore hd⟩
  | library =>
    have htasklet : isTasklet n = false := by simp [isTasklet, hkind]
    cases hc : isCandidate S maxElements n with
    | true =>
      have hd : isDevice S maxElements n = false := by simp [isDevice, hkind, hc]
      exact ⟨by simp [hcandidates, hc], by simp [htasklets, htasklet], hsame hd⟩
    | false =>
      have hd : isDevice S maxElements n = true := by simp [isDevice, hkind, hc]
      exact ⟨by simp [hcandidates, hc], by simp [htasklets, htasklet], hmore hd⟩
  | nested =>
    have htasklet : isTasklet n = false := by simp [isTasklet, hkind]
    have hc : isCandidate S maxElements n = false := by simp [isCandidate, hkind]
    have hd : isDevice S maxElements n = true := by simp [isDevice, hkind]
    exact ⟨by simp [hcandidates, hc], by simp [htasklets, htasklet], hmore hd⟩
  | tasklet =>
    have htasklet : isTasklet n = true := by simp [isTasklet, hkind]
    have hc : isCandidate S maxElements n = false := by simp [isCandidate, hkind]
    have hd : isDevice S maxElements n = false := by simp [isDevice, hkind]
    exact ⟨by simp [hcandidates, hc], by simp [htasklets, htasklet], hsame hd⟩
  | other =>
    have htasklet : isTasklet n = false := by simp [isTasklet, hkind]
    have hc : isCandidate S maxElements n = false := by simp [isCandidate, hkind]
    have hd : isDevice S maxElements n = false := by simp [isDevice, hkind]
    exact ⟨by simp [hcandidates, hc], by simp [htasklets, htasklet], hsame hd⟩

theorem foldl_collect (S : Sdfg) (maxElements : ℤ) (rest : List Node) :
    ∀ (nodes : List Node) (w : Work), w.Of S maxElements nodes →
      (rest.foldl (collect S maxElements) w).Of S maxElements
        (nodes ++ rest.filter fun n => !n.inScope) := by
  induction rest with
  | nil =>
    intro nodes w h
    rw [filter_nil, append_nil]
    exact h
  | cons n rest ih =>
    intro nodes w h
    rw [foldl_cons]
    cases hn : n.inScope with
    | true =>
      have hcollect : collect S maxElements w n = w := by simp [collect, hn]
      rw [hcollect]
      simpa [hn] using ih nodes w h
    | false =>
      have hsnoc := ih (nodes ++ [n]) _ (h.snoc hn)
      simpa [hn] using hsnoc

theorem collected_of (S : Sdfg) (maxElements : ℤ) :
    (collected S maxElements).Of S maxElements (topNodes S) := by
  have h : (Work.mk [] [] (gpuNames S)).Of S maxElements [] := by
    refine ⟨rfl, rfl, ?_⟩
    intro x
    simp
  exact foldl_collect S maxElements S.states.flatten [] _ h

/-! ## Host and device -/

/-- The sets of containers that stay or go together: those of the free tasklets and of the
candidates. -/
def unitNodes (S : Sdfg) (maxElements : ℤ) : List Node :=
  (topNodes S).filter fun n => isTasklet n || isCandidate S maxElements n

def Unit (S : Sdfg) (maxElements : ℤ) (u : Set String) : Prop :=
  ∃ n ∈ unitNodes S maxElements, u = (scopeData n : Set String)

/-- What device work touches at first. -/
def deviceStart (S : Sdfg) (maxElements : ℤ) : Set String :=
  fun x => x ∈ gpuNames S ∨ ∃ n ∈ topNodes S, isDevice S maxElements n = true ∧ x ∈ scopeData n

/-- The names device work reaches over shared names. -/
def DeviceName (S : Sdfg) (maxElements : ℤ) : String → Prop :=
  Touched (Unit S maxElements) (deviceStart S maxElements)

/-- The memory device work reaches over shared memory. -/
def DeviceStorage (S : Sdfg) (maxElements : ℤ) : String → Prop :=
  Touched (imageUnit S.storage (Unit S maxElements))
    (Set.image S.storage (deviceStart S maxElements))

/-- The node is left on the host; without a positive bound nothing is. -/
def OnHost (S : Sdfg) (maxElements : ℤ) (n : Node) : Prop :=
  0 < maxElements ∧ n ∈ unitNodes S maxElements ∧
    ∀ x ∈ scopeData n, ¬ DeviceStorage S maxElements (S.storage x)

/-- The maps and containers are those of the work that shares no memory with device work. -/
structure Separates (S : Sdfg) (maxElements : ℤ) (result : List String × Finset String) : Prop where
  maps : ∀ guid, guid ∈ result.1 ↔ ∃ n, OnHost S maxElements n ∧ isTasklet n = false ∧
    guidOf n = some guid
  containers : ∀ x, x ∈ result.2 ↔ ∃ n, OnHost S maxElements n ∧ x ∈ scopeData n
  apart : ∀ n ∈ topNodes S, ¬ OnHost S maxElements n → (isDevice S maxElements n = true ∨
    n ∈ unitNodes S maxElements) → ∀ x ∈ scopeData n, ∀ y ∈ result.2, S.storage x ≠ S.storage y

theorem units_iff (S : Sdfg) (maxElements : ℤ) (u : Set String) :
    OneOf (collected S maxElements).units u ↔ Unit S maxElements u := by
  obtain ⟨hcandidates, htasklets, -⟩ := collected_of S maxElements
  unfold OneOf Unit Work.units unitNodes
  rw [hcandidates, htasklets]
  constructor
  · rintro ⟨data, hdata, rfl⟩
    rcases mem_append.1 hdata with hdata | hdata
    · obtain ⟨n, hn, rfl⟩ := mem_map.1 hdata
      obtain ⟨hn, ht⟩ := mem_filter.1 hn
      exact ⟨n, mem_filter.2 ⟨hn, by rw [ht, Bool.true_or]⟩, rfl⟩
    · obtain ⟨n, hn, rfl⟩ := mem_map.1 hdata
      obtain ⟨hn, hc⟩ := mem_filter.1 hn
      exact ⟨n, mem_filter.2 ⟨hn, by rw [hc, Bool.or_true]⟩, rfl⟩
  · rintro ⟨n, hn, rfl⟩
    obtain ⟨hn, hkind⟩ := mem_filter.1 hn
    refine ⟨scopeData n, ?_, rfl⟩
    rcases Bool.or_eq_true_iff.1 hkind with ht | hc
    · exact mem_append_left _ (mem_map_of_mem (mem_filter.2 ⟨hn, ht⟩))
    · exact mem_append_right _ (mem_map_of_mem (mem_filter.2 ⟨hn, hc⟩))

theorem mem_device (S : Sdfg) (maxElements : ℤ) (x : String) :
    x ∈ loop (collected S maxElements).units (collected S maxElements).device ↔
      DeviceName S maxElements x := by
  rw [mem_loop]
  refine touched_congr (units_iff S maxElements) ?_ x
  obtain ⟨-, -, hdevice⟩ := collected_of S maxElements
  ext y
  exact hdevice y

/-- The set shares no name with device work. -/
theorem inter_eq_empty_iff (S : Sdfg) (maxElements : ℤ) (n : Node) :
    scopeData n ∩ loop (collected S maxElements).units (collected S maxElements).device = ∅ ↔
      ∀ x ∈ scopeData n, ¬ DeviceName S maxElements x := by
  rw [← Finset.disjoint_iff_inter_eq_empty, Finset.disjoint_left]
  refine forall₂_congr fun x _ => ?_
  rw [mem_device]

/-- No container is reached under one name by device work and touched under another one by work that
does not touch what device work reaches. -/
def OneName (S : Sdfg) (maxElements : ℤ) : Prop :=
  ∀ x y, DeviceName S maxElements x → S.storage x = S.storage y →
    (∃ u, Unit S maxElements u ∧ y ∈ u) → DeviceName S maxElements y

theorem DeviceName.storage {x : String}
    (h : DeviceName S maxElements x) : DeviceStorage S maxElements (S.storage x) :=
  Touched.image S.storage h

/-- Where containers have one name, a unit meets device work's memory if it meets its names. -/
theorem onHost_iff (hpos : 0 < maxElements) (h : OneName S maxElements)
    (n : Node) : OnHost S maxElements n ↔
      n ∈ unitNodes S maxElements ∧ ∀ x ∈ scopeData n, ¬ DeviceName S maxElements x := by
  unfold OnHost
  rw [and_iff_right hpos]
  refine and_congr_right fun hn => forall₂_congr fun x hx => not_congr ⟨?_, DeviceName.storage⟩
  intro hstorage
  obtain ⟨y, hy, hyx⟩ := exists_of_touched_image S.storage h hstorage
  exact h y x hy hyx ⟨_, ⟨n, hn, rfl⟩, by exact_mod_cast hx⟩

/-- What the function returns, by names. -/
theorem mem_hostMaps (hpos : 0 < maxElements) (guid : String) :
    guid ∈ (hostSmallWork S maxElements).1 ↔ ∃ n, (n ∈ unitNodes S maxElements ∧
      ∀ x ∈ scopeData n, ¬ DeviceName S maxElements x) ∧ isTasklet n = false ∧
        guidOf n = some guid := by
  obtain ⟨hcandidates, -, -⟩ := collected_of S maxElements
  simp only [hostSmallWork, if_neg (not_le.2 hpos), mem_filterMap, mem_filter,
    decide_eq_true_eq, inter_eq_empty_iff, hcandidates, unitNodes]
  constructor
  · rintro ⟨n, ⟨⟨hn, hc⟩, hhost⟩, hguid⟩
    have htasklet : isTasklet n = false := by
      cases hkind : n.kind <;> simp_all [isTasklet, isCandidate]
    exact ⟨n, ⟨⟨hn, by rw [hc, Bool.or_true]⟩, hhost⟩, htasklet, hguid⟩
  · rintro ⟨n, ⟨⟨hn, hc⟩, hhost⟩, htasklet, hguid⟩
    rw [htasklet, Bool.false_or] at hc
    exact ⟨n, ⟨⟨hn, hc⟩, hhost⟩, hguid⟩

theorem mem_hostData (hpos : 0 < maxElements) (x : String) :
    x ∈ (hostSmallWork S maxElements).2 ↔ ∃ n, (n ∈ unitNodes S maxElements ∧
      ∀ y ∈ scopeData n, ¬ DeviceName S maxElements y) ∧ x ∈ scopeData n := by
  obtain ⟨hcandidates, htasklets, -⟩ := collected_of S maxElements
  simp only [hostSmallWork, if_neg (not_le.2 hpos), Finset.mem_union, mem_total, mem_map,
    mem_filter, decide_eq_true_eq, hcandidates, htasklets, unitNodes]
  constructor
  · rintro (⟨u, ⟨n, ⟨⟨hn, hc⟩, hhost⟩, rfl⟩, hx⟩ | ⟨u, ⟨⟨n, ⟨hn, ht⟩, rfl⟩, hhost⟩, hx⟩)
    · exact ⟨n, ⟨⟨hn, by rw [hc, Bool.or_true]⟩, (inter_eq_empty_iff S maxElements n).1 hhost⟩, hx⟩
    · exact ⟨n, ⟨⟨hn, by rw [ht, Bool.true_or]⟩, (inter_eq_empty_iff S maxElements n).1 hhost⟩, hx⟩
  · rintro ⟨n, ⟨⟨hn, hkind⟩, hhost⟩, hx⟩
    have hhost := (inter_eq_empty_iff S maxElements n).2 hhost
    rcases Bool.or_eq_true_iff.1 hkind with ht | hc
    · exact .inr ⟨_, ⟨⟨n, ⟨hn, ht⟩, rfl⟩, hhost⟩, hx⟩
    · exact .inl ⟨_, ⟨n, ⟨⟨hn, hc⟩, hhost⟩, rfl⟩, hx⟩

theorem separates_of_oneName (hpos : 0 < maxElements)
    (h : OneName S maxElements) : Separates S maxElements (hostSmallWork S maxElements) := by
  refine ⟨?_, ?_, ?_⟩
  · intro guid
    rw [mem_hostMaps hpos]
    simp only [onHost_iff hpos h]
  · intro x
    rw [mem_hostData hpos]
    simp only [onHost_iff hpos h]
  · rintro n hn hdevice hkind x hx y hy hsame
    obtain ⟨m, ⟨hm, hhost⟩, hym⟩ := (mem_hostData hpos y).1 hy
    -- the node is device work, so its names are reached
    have hreached : DeviceName S maxElements x := by
      rcases hkind with hkind | hunit
      · exact .start (.inr ⟨n, hn, hkind, hx⟩)
      · rw [onHost_iff hpos h] at hdevice
        obtain ⟨z, hz, hzd⟩ : ∃ z ∈ scopeData n, DeviceName S maxElements z := by
          by_contra hnone
          exact hdevice ⟨hunit, fun z hz hzd => hnone ⟨z, hz, hzd⟩⟩
        exact .unit ⟨n, hunit, rfl⟩ (by exact_mod_cast hz) hzd (by exact_mod_cast hx)
    exact hhost y hym (h x y hreached hsame ⟨_, ⟨m, hm, rfl⟩, by exact_mod_cast hym⟩)

theorem oneName_of_separates (hpos : 0 < maxElements)
    (h : Separates S maxElements (hostSmallWork S maxElements)) : OneName S maxElements := by
  rintro x y hx hsame ⟨u, ⟨n, hn, rfl⟩, hy⟩
  have hy : y ∈ scopeData n := by exact_mod_cast hy
  by_contra hname
  -- the unit is left on the host, for all of it would be reached with one of its names
  have hhost : ∀ z ∈ scopeData n, ¬ DeviceName S maxElements z := by
    intro z hz hreached
    exact hname (.unit ⟨n, hn, rfl⟩ (by exact_mod_cast hz) hreached (by exact_mod_cast hy))
  have hmem : y ∈ (hostSmallWork S maxElements).2 := (mem_hostData hpos y).2 ⟨n, ⟨hn, hhost⟩, hy⟩
  obtain ⟨m, hm, hym⟩ := (h.containers y).1 hmem
  refine hm.2.2 y hym ?_
  rw [← hsame]
  exact hx.storage

theorem separates_of_not_pos (hpos : ¬ 0 < maxElements) :
    Separates S maxElements (hostSmallWork S maxElements) := by
  have hresult : hostSmallWork S maxElements = ([], ∅) := if_pos (not_lt.1 hpos)
  rw [hresult]
  refine ⟨?_, ?_, ?_⟩
  · intro guid
    simp [OnHost, hpos]
  · intro x
    simp [OnHost, hpos]
  · intro n _ _ _ x _ y hy
    exact absurd hy (Finset.notMem_empty y)

/-! ## The order of states and nodes -/

/-- The same nodes in other states or in another order. -/
structure Reordered (S S' : Sdfg) : Prop where
  arrays : S'.arrays = S.arrays
  storage : S'.storage = S.storage
  nodes : S'.states.flatten.Perm S.states.flatten

section order

variable {S S' : Sdfg} {maxElements : ℤ}

theorem Reordered.isCandidate (h : Reordered S S') (n : Node) :
    isCandidate S' maxElements n = isCandidate S maxElements n := by
  have hsmall : small S' maxElements = small S maxElements := by
    funext name
    unfold small
    rw [h.arrays]
  unfold HostWork.isCandidate smallData
  rw [hsmall]

theorem Reordered.mem_topNodes (h : Reordered S S') (n : Node) : n ∈ topNodes S' ↔
    n ∈ topNodes S := by
  unfold topNodes
  rw [mem_filter, mem_filter, h.nodes.mem_iff]

theorem Reordered.mem_unitNodes (h : Reordered S S') (n : Node) :
    n ∈ unitNodes S' maxElements ↔ n ∈ unitNodes S maxElements := by
  unfold unitNodes
  rw [mem_filter, mem_filter, h.mem_topNodes, h.isCandidate]

theorem Reordered.deviceName (h : Reordered S S') (x : String) :
    DeviceName S' maxElements x ↔ DeviceName S maxElements x := by
  refine touched_congr ?_ ?_ x
  · intro u
    unfold Unit
    simp only [h.mem_unitNodes]
  · have hgpu : gpuNames S' = gpuNames S := by
      unfold gpuNames
      rw [h.arrays]
    have hdevice (n : Node) : isDevice S' maxElements n = isDevice S maxElements n := by
      unfold isDevice
      rw [h.isCandidate]
    ext y
    unfold deviceStart
    simp only [hgpu, hdevice, h.mem_topNodes]

/-- The answer is that of the set of nodes. -/
theorem Reordered.result (h : Reordered S S') :
    (∀ guid, guid ∈ (hostSmallWork S' maxElements).1 ↔ guid ∈ (hostSmallWork S maxElements).1) ∧
      (hostSmallWork S' maxElements).2 = (hostSmallWork S maxElements).2 := by
  by_cases hpos : 0 < maxElements
  · constructor
    · intro guid
      rw [mem_hostMaps hpos, mem_hostMaps hpos]
      simp only [h.mem_unitNodes, h.deviceName]
    · ext x
      rw [mem_hostData hpos, mem_hostData hpos]
      simp only [h.mem_unitNodes, h.deviceName]
  · have hresult (T : Sdfg) : hostSmallWork T maxElements = ([], ∅) := if_pos (not_lt.1 hpos)
    rw [hresult S, hresult S']
    exact ⟨fun _ => Iff.rfl, rfl⟩

end order

/-- **Host and device are separated**, whatever the order of states and nodes, exactly when no
memory is reached under one name and touched under another. -/
theorem hostSmallWork_separates_iff (S : Sdfg) (maxElements : ℤ) :
    (Separates S maxElements (hostSmallWork S maxElements) ∧ ∀ S', Reordered S S' →
      (∀ guid, guid ∈ (hostSmallWork S' maxElements).1 ↔ guid ∈ (hostSmallWork S maxElements).1) ∧
        (hostSmallWork S' maxElements).2 = (hostSmallWork S maxElements).2) ↔
      (0 < maxElements → OneName S maxElements) := by
  constructor
  · rintro ⟨h, -⟩ hpos
    exact oneName_of_separates hpos h
  · intro h
    refine ⟨?_, fun S' hS' => hS'.result⟩
    by_cases hpos : 0 < maxElements
    · exact separates_of_oneName hpos (h hpos)
    · exact separates_of_not_pos hpos

/-- A map over the view `v` of the array `a` and a small map over `a`. -/
def viewed : Sdfg where
  arrays := [("a", ⟨.array, some 4, false⟩), ("v", ⟨.view, some 4, false⟩)]
  states := [[⟨.map "1" (some 4) [some "IN_v"], false, [some "v"]⟩,
    ⟨.map "2" (some 4) [some "IN_a"], false, [some "a"]⟩]]
  storage x := if x = "v" then "a" else x

theorem deviceName_viewed {x : String} (h : DeviceName viewed 64 x) : x = "v" := by
  refine h.subset (s := fun y => y = "v") ?_ ?_
  · rintro y (hy | ⟨n, hn, hd, hy⟩)
    · have hgpu : gpuNames viewed = ∅ := by decide
      rw [hgpu] at hy
      cases hy
    · have htop : topNodes viewed = [⟨.map "1" (some 4) [some "IN_v"], false, [some "v"]⟩,
          ⟨.map "2" (some 4) [some "IN_a"], false, [some "a"]⟩] := rfl
      rw [htop] at hn
      rcases mem_cons.1 hn with rfl | hn
      · have hdata : scopeData ⟨.map "1" (some 4) [some "IN_v"], false, [some "v"]⟩ =
          {"v"} := by decide
        rw [hdata] at hy
        exact Finset.mem_singleton.1 hy
      · rw [mem_singleton.1 hn] at hd
        cases hd
  · rintro u ⟨n, hn, rfl⟩ ⟨y, hy, rfl⟩
    have hunits : unitNodes viewed 64 = [⟨.map "2" (some 4) [some "IN_a"], false, [some "a"]⟩] := by
      rfl
    rw [hunits] at hn
    rw [mem_singleton.1 hn] at hy
    have hdata : scopeData ⟨.map "2" (some 4) [some "IN_a"], false, [some "a"]⟩ = {"a"} := by decide
    rw [hdata] at hy
    have h : "v" = "a" := Finset.mem_singleton.1 (Finset.mem_coe.1 hy)
    exact absurd h (by decide)

/-- The map over the array is left on the host, while the one over its view runs on the device. -/
theorem not_separates_viewed : ¬ Separates viewed 64 (hostSmallWork viewed 64) := by
  intro h
  have hunit : (⟨.map "2" (some 4) [some "IN_a"], false, [some "a"]⟩ : Node) ∈
      unitNodes viewed 64 := by
    have hunits : unitNodes viewed 64 = [⟨.map "2" (some 4) [some "IN_a"], false, [some "a"]⟩] := by
      rfl
    rw [hunits]
    exact List.mem_cons_self
  have ha : "a" ∈ scopeData ⟨.map "2" (some 4) [some "IN_a"], false, [some "a"]⟩ := by decide
  have hv : "v" ∈ scopeData ⟨.map "1" (some 4) [some "IN_v"], false, [some "v"]⟩ := by decide
  have hhost : "a" ∈ (hostSmallWork viewed 64).2 := by
    refine (mem_hostData (by decide) "a").2 ⟨_, ⟨hunit, ?_⟩, ha⟩
    intro y hy hreached
    have hdata : scopeData ⟨.map "2" (some 4) [some "IN_a"], false, [some "a"]⟩ = {"a"} := by decide
    rw [hdata, Finset.mem_singleton] at hy
    subst hy
    exact absurd (deviceName_viewed hreached) (by decide)
  have hdevice : DeviceName viewed 64 "v" := by
    refine .start (.inr ⟨⟨.map "1" (some 4) [some "IN_v"], false, [some "v"]⟩, ?_, rfl, hv⟩)
    exact List.mem_cons_self
  obtain ⟨n, hn, han⟩ := (h.containers "a").1 hhost
  exact hn.2.2 "a" han hdevice.storage

end HostWork
