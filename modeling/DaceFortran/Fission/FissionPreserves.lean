/-
# The split program returns the same values

An execution of the program before the split and the same execution after it:
the accesses to the scalar in a grouped loop go to the loop's copy.  Every read
returns the same value, and nothing flows into an iteration, exactly when no
iteration reaches a use of the scalar through a blind spot of the scan
(`fissionScalar_preserves_iff`).
-/
import DaceFortran.Fission.FissionSound

open List

namespace Fission

open Function

open FlowGraph

/-! ## The same execution after the split -/

/-- An access of the renamed region. -/
def Event.rename (old new : String) : Event → Event
  | .read n => .read (renameName old new n)
  | .test n => .test (renameName old new n)
  | .write n v => .write (renameName old new n) v
  | .reachLoop body => .reachLoop (body.rename old new)
  | .enterRegion r => .enterRegion (r.rename old new)

/-- A segment of the split program. -/
def Segment.split (x : String) : Segment → Segment
  | .outside t => .outside t
  | .iteration label body t =>
      if grouped x body then
        .iteration label (body.rename x (copyName x label))
          (t.map (Event.rename x (copyName x label)))
      else .iteration label body t

/-! No loop header of the region names the scalar. -/
mutual
def Block.HeadersClear (x : String) : Block → Prop
  | .state _ => True
  | .conditional branches => branchesHeadersClear x branches
  | .loop _ header body => x ∉ header ∧ body.HeadersClear x
def branchesHeadersClear (x : String) : List Branch → Prop
  | [] => True
  | .mk _ body :: rest => body.HeadersClear x ∧ branchesHeadersClear x rest
def Region.HeadersClear (x : String) : Region → Prop
  | .mk blocks _ _ => blocksHeadersClear x blocks
def blocksHeadersClear (x : String) : List Block → Prop
  | [] => True
  | b :: bs => b.HeadersClear x ∧ blocksHeadersClear x bs
end

theorem exists_of_loopRounds {scan : Transfer} {entry : Bool} (k : ℕ) {seen : Bool}
    {last : Bool × Bool} (h : (loopRounds scan entry (k + 1) seen last).1 = true) :
    ∃ v, (scan v).1 = true := by
  induction k generalizing seen last with
  | zero =>
      simp only [loopRounds] at h
      split_ifs at h <;> exact ⟨seen, h⟩
  | succ k ih =>
      rw [loopRounds] at h
      split_ifs at h
      · exact ⟨seen, h⟩
      · exact ih h

mutual
/-- The scan refuses a block with a loop header that names the scalar. -/
theorem Block.headersClear {x : String} :
    ∀ (b : Block) {v : Bool}, (b.exit x v).1 = true → b.HeadersClear x
  | .state _, _, _ => trivial
  | .conditional branches, _, h => branches_headersClear branches h
  | .loop _ header body, v, h => by
      simp only [Block.exit] at h
      split_ifs at h with hheader
      obtain ⟨v', hv'⟩ := exists_of_loopRounds 7 h
      exact ⟨hheader, Region.headersClear body hv'⟩
theorem branches_headersClear {x : String} :
    ∀ (branches : List Branch) {v : Bool}, (branchScans x branches v).all Prod.fst = true →
      branchesHeadersClear x branches
  | [], _, _ => trivial
  | .mk _ body :: rest, v, h => by
      simp only [branchScans, all_cons, Bool.and_eq_true] at h
      exact ⟨Region.headersClear body h.1, branches_headersClear rest h.2⟩
theorem Region.headersClear {x : String} :
    ∀ (r : Region) {v : Bool}, (r.scan x v).1 = true → r.HeadersClear x
  | .mk blocks edges start, v, h => by
      refine blocks_headersClear blocks ?_
      intro f hf
      have hne : (blockExits x blocks).isEmpty = false := by
        rw [isEmpty_eq_false_iff]
        exact ne_nil_of_mem hf
      simp only [Region.scan, hne, Bool.false_eq_true, if_false, Bool.and_eq_true] at h
      obtain ⟨i, hi⟩ := mem_iff_getElem?.mp hf
      exact ⟨_, all_eq_true.mp h.1 (f, i) (mem_zipIdx_iff_getElem?.mpr hi)⟩
theorem blocks_headersClear {x : String} :
    ∀ blocks : List Block, (∀ f ∈ blockExits x blocks, ∃ v, (f v).1 = true) →
      blocksHeadersClear x blocks
  | [], _ => trivial
  | b :: bs, h => by
      obtain ⟨v, hv⟩ := h (b.exit x) mem_cons_self
      exact ⟨Block.headersClear b hv,
        blocks_headersClear bs (fun f hf => h f (mem_cons_of_mem _ hf))⟩
end

variable {old new : String} {s : List Segment} {p : Program}

theorem rename_tests (names : List String) :
    tests (names.map (renameName old new)) = (tests names).map (Event.rename old new) := by
  simp [tests, Event.rename]

variable {names : List String} {K : String → Prop} {loops : List OuterLoop}

theorem rename_tests_of_notMem (h : old ∉ names) :
    (tests names).map (Event.rename old new) = tests names := by
  simp only [tests, map_map]
  refine map_congr_left (fun n hn => ?_)
  have hne : n ≠ old := fun heq => h (heq ▸ hn)
  simp [Event.rename, renameName, hne]

theorem rename_stateTrace (old new : String) (nodes : List AccessNode) (vals : ℕ → ℤ) :
    stateTrace (nodes.map (fun n => { n with data := renameName old new n.data })) vals =
      (stateTrace nodes vals).map (Event.rename old new) := by
  have hreads : ∀ l : List AccessNode,
      ((l.map (fun n => { n with data := renameName old new n.data })).filter
        (fun n => !n.written && n.read)).map (fun n => Event.read n.data) =
      ((l.filter (fun n => !n.written && n.read)).map (fun n => Event.read n.data)).map
        (Event.rename old new) := by
    intro l
    rw [filter_map, map_map, map_map]
    rfl
  unfold stateTrace
  rw [hreads, map_append, zipIdx_map, flatMap_map, map_flatMap]
  congr 2
  funext p
  obtain ⟨n, i⟩ := p
  simp only [Prod.map]
  split_ifs <;> rfl

theorem rename_leave (old new : String) (edges : List (Edge (List String))) (b : ℕ) :
    leave (edges.map (fun e => { e with data := e.data.map (renameName old new) })) b =
      (leave edges b).map (Event.rename old new) := by
  unfold leave
  rw [filter_map, flatMap_map, map_flatMap]
  congr 1
  funext e
  simp [Event.rename]

mutual
/-- A trace of a block, renamed, is a trace of the renamed block. -/
theorem Block.traces_rename {old new : String} :
    ∀ b : Block, b.HeadersClear old → ∀ t, b.Traces t →
      (b.rename old new).Traces (t.map (Event.rename old new))
  | .state nodes, _, t, ht => by
      obtain ⟨vals, rfl⟩ := ht
      exact ⟨vals, (rename_stateTrace old new nodes vals).symm⟩
  | .conditional branches, h, t, ht => branches_traces_rename branches h t ht
  | .loop label header body, h, t, ht => by
      obtain ⟨iters, hiters, rfl⟩ := ht
      refine ⟨iters.map (List.map (Event.rename old new)), ?_, ?_⟩
      · intro i hi
        obtain ⟨i₀, hi₀, rfl⟩ := mem_map.mp hi
        exact Region.traces_rename body h.2 i₀ (hiters i₀ hi₀)
      · simp only [map_cons, map_append, map_flatMap, flatMap_map,
          rename_tests_of_notMem h.1, Event.rename]
theorem branches_traces_rename {old new : String} :
    ∀ branches : List Branch, branchesHeadersClear old branches → ∀ t, branchTraces branches t →
      branchTraces (branchesRename old new branches) (t.map (Event.rename old new))
  | [], _, t, ht => by
      obtain rfl : t = [] := ht
      rfl
  | .mk cond body :: rest, h, t, ht => by
      have hcond : tests ((cond.map (List.map (renameName old new))).getD []) =
          (tests (cond.getD [])).map (Event.rename old new) := by
        cases cond with
        | none => rfl
        | some c => exact rename_tests c
      rcases ht with ⟨u, hu, rfl⟩ | ⟨hne, u, hu, rfl⟩ <;> rw [map_append, ← hcond]
      · exact Or.inl ⟨_, Region.traces_rename body h.1 u hu, rfl⟩
      · exact Or.inr ⟨by simpa using hne, _, branches_traces_rename rest h.2 u hu, rfl⟩
theorem Region.traces_rename {old new : String} :
    ∀ r : Region, r.HeadersClear old → ∀ t, r.Traces t →
      (r.rename old new).Traces (t.map (Event.rename old new))
  | .mk blocks edges start, h, t, ht => by
      obtain ⟨u, rfl, hu⟩ := ht
      refine ⟨u.map (Event.rename old new), rfl, ?_⟩
      rcases hu with ⟨rfl, rfl⟩ | hu
      · exact Or.inl ⟨rfl, rfl⟩
      · exact Or.inr (hu.map (g := fun e => { e with data := e.data.map (renameName old new) })
          (fun _ => ⟨rfl, rfl⟩) (fun i S t hS ht => blocks_traces_rename blocks h i S t hS ht)
          (rename_leave old new edges))
theorem blocks_traces_rename {old new : String} :
    ∀ blocks : List Block, blocksHeadersClear old blocks → ∀ (i : ℕ) (S : List Event → Prop)
      (t : List Event), (blockTraces blocks)[i]? = some S → S t →
      ∃ S', (blockTraces (blocksRename old new blocks))[i]? = some S' ∧
        S' (t.map (Event.rename old new))
  | [], _, _, _, _, hS, _ => by simp [blockTraces] at hS
  | b :: bs, h, 0, S, t, hS, ht => by
      have hS' : b.Traces = S := by simpa [blockTraces] using hS
      exact ⟨_, rfl, Block.traces_rename b h.1 t (hS' ▸ ht)⟩
  | b :: bs, h, i + 1, S, t, hS, ht =>
      blocks_traces_rename bs h.2 i S t (by simpa [blockTraces] using hS) ht
end

mutual
/-- An execution of a block, split, is an execution of the split block. -/
theorem Block.executes_split {x : String} :
    ∀ b : Block, (∀ l ∈ b.loops, grouped x l.body = true → l.body.HeadersClear x) →
      ∀ s, b.Executes s → (b.split x).Executes (s.map (Segment.split x))
  | .state nodes, _, s, hs => by
      obtain ⟨vals, rfl⟩ := hs
      exact ⟨vals, rfl⟩
  | .conditional branches, h, s, hs => branches_executes_split branches h s hs
  | .loop label header body, h, s, hs => by
      obtain ⟨iters, hiters, rfl⟩ := hs
      have hclear := h ⟨label, header, body⟩ (mem_singleton_self _)
      by_cases hg : grouped x body = true
      · refine ⟨iters.map (List.map (Event.rename x (copyName x label))), ?_, ?_⟩
        · intro i hi
          obtain ⟨i₀, hi₀, rfl⟩ := mem_map.mp hi
          rw [if_pos hg]
          exact Region.traces_rename body (hclear hg) i₀ (hiters i₀ hi₀)
        · simp [map_flatMap, flatMap_map, Segment.split, hg]
      · refine ⟨iters, ?_, ?_⟩
        · rw [if_neg hg]
          exact hiters
        · simp [map_flatMap, Segment.split, hg]
theorem branches_executes_split {x : String} :
    ∀ branches : List Branch,
      (∀ l ∈ branchesLoops branches, grouped x l.body = true → l.body.HeadersClear x) →
      ∀ s, branchExecutes branches s →
        branchExecutes (branchesSplit x branches) (s.map (Segment.split x))
  | [], _, s, hs => by
      obtain rfl : s = [] := hs
      rfl
  | .mk cond body :: rest, h, s, hs => by
      have hbody := fun l hl => h l (mem_append_left _ hl)
      have hrest := fun l hl => h l (mem_append_right _ hl)
      rcases hs with ⟨u, hu, rfl⟩ | ⟨hne, u, hu, rfl⟩
      · exact Or.inl ⟨_, Region.executes_split body hbody u hu, rfl⟩
      · exact Or.inr ⟨hne, _, branches_executes_split rest hrest u hu, rfl⟩
theorem Region.executes_split {x : String} :
    ∀ r : Region, (∀ l ∈ r.loops, grouped x l.body = true → l.body.HeadersClear x) →
      ∀ s, r.Executes s → (r.split x).Executes (s.map (Segment.split x))
  | .mk blocks edges start, h, s, hs => by
      rcases hs with ⟨rfl, rfl⟩ | hs
      · exact Or.inl ⟨rfl, rfl⟩
      · refine Or.inr ?_
        have hmap : FlowGraph.Walk (blockExecutes (blocksSplit x blocks)) (edges.map id)
            (fun b => [.outside (leave edges b)]) start (s.map (Segment.split x)) :=
          hs.map (fun _ => ⟨rfl, rfl⟩)
            (fun i S t hS ht => blocks_executes_split blocks h i S t hS ht)
            (fun _ => rfl)
        rwa [map_id] at hmap
theorem blocks_executes_split {x : String} :
    ∀ blocks : List Block,
      (∀ l ∈ blocksLoops blocks, grouped x l.body = true → l.body.HeadersClear x) →
      ∀ (i : ℕ) (S : List Segment → Prop) (s : List Segment), (blockExecutes blocks)[i]? = some S →
        S s → ∃ S', (blockExecutes (blocksSplit x blocks))[i]? = some S' ∧
          S' (s.map (Segment.split x))
  | [], _, _, _, _, hS, _ => by simp [blockExecutes] at hS
  | b :: bs, h, 0, S, s, hS, hs => by
      have hS' : b.Executes = S := by simpa [blockExecutes] using hS
      exact ⟨_, rfl, Block.executes_split b (fun l hl => h l (mem_append_left _ hl)) s
        (hS' ▸ hs)⟩
  | b :: bs, h, i + 1, S, s, hS, hs =>
      blocks_executes_split bs (fun l hl => h l (mem_append_right _ hl)) i S s
        (by simpa [blockExecutes] using hS) hs
end

/-! ## The names of an execution -/

/-- The datum an access names is one of `K`. -/
def Event.NamesIn (K : String → Prop) : Event → Prop
  | .read n => K n
  | .test n => K n
  | .write n _ => K n
  | _ => True

theorem namesIn_tests (h : ∀ n ∈ names, K n) :
    ∀ e ∈ tests names, e.NamesIn K := by
  intro e he
  obtain ⟨n, hn, rfl⟩ := mem_map.mp he
  exact h n hn

theorem namesIn_state {nodes : List AccessNode} (h : ∀ n ∈ nodes, K n.data)
    (vals : ℕ → ℤ) : ∀ e ∈ stateTrace nodes vals, e.NamesIn K := by
  intro e he
  rcases mem_append.mp he with he | he
  · obtain ⟨n, hn, rfl⟩ := mem_map.mp he
    exact h n (mem_filter.mp hn).1
  · obtain ⟨⟨n, i⟩, hn, he⟩ := mem_flatMap.mp he
    have hK := h n (mem_of_getElem? (mem_zipIdx_iff_getElem?.mp hn))
    dsimp only at he
    split_ifs at he <;> simp at he
    · rcases he with rfl | rfl <;> exact hK
    · subst he
      exact hK

theorem namesIn_leave {edges : List (Edge (List String))}
    (h : ∀ n ∈ edges.flatMap (fun e => e.data), K n) (b : ℕ) :
    ∀ e ∈ leave edges b, e.NamesIn K := by
  intro ev hev
  obtain ⟨e, he, hmem⟩ := mem_flatMap.mp hev
  obtain ⟨n, hn, rfl⟩ := mem_map.mp hmem
  exact h n (mem_flatMap.mpr ⟨e, (mem_filter.mp he).1, hn⟩)

mutual
theorem Block.traces_namesIn {K : String → Prop} :
    ∀ b : Block, (∀ n ∈ b.names, K n) → ∀ t, b.Traces t → ∀ e ∈ t, e.NamesIn K
  | .state nodes, h, t, ht => by
      obtain ⟨vals, rfl⟩ := ht
      exact namesIn_state (fun n hn => h _ (mem_map.mpr ⟨n, hn, rfl⟩)) vals
  | .conditional branches, h, t, ht => branches_traces_namesIn branches h t ht
  | .loop _ header body, h, t, ht => by
      obtain ⟨iters, hiters, rfl⟩ := ht
      have htests := namesIn_tests (fun n hn => h n (mem_append_left _ hn))
      intro e hmem
      rcases mem_cons.mp hmem with rfl | hmem
      · trivial
      · rcases mem_append.mp hmem with hmem | hmem
        · exact htests e hmem
        · obtain ⟨i, hi, hmem⟩ := mem_flatMap.mp hmem
          rcases mem_append.mp hmem with hmem | hmem
          · exact Region.traces_namesIn body (fun n hn => h n (mem_append_right _ hn)) i
              (hiters i hi) e hmem
          · exact htests e hmem
theorem branches_traces_namesIn {K : String → Prop} :
    ∀ branches : List Branch, (∀ n ∈ branchNames branches, K n) →
      ∀ t, branchTraces branches t → ∀ e ∈ t, e.NamesIn K
  | [], _, t, ht => by
      obtain rfl : t = [] := ht
      simp
  | .mk cond body :: rest, h, t, ht => by
      simp only [branchNames, mem_append] at h
      rcases ht with ⟨u, hu, rfl⟩ | ⟨-, u, hu, rfl⟩ <;> intro e hmem <;>
        rcases mem_append.mp hmem with hmem | hmem
      · exact namesIn_tests (fun n hn => h n (Or.inl (Or.inl hn))) e hmem
      · exact Region.traces_namesIn body (fun n hn => h n (Or.inl (Or.inr hn))) u hu e hmem
      · exact namesIn_tests (fun n hn => h n (Or.inl (Or.inl hn))) e hmem
      · exact branches_traces_namesIn rest (fun n hn => h n (Or.inr hn)) u hu e hmem
theorem Region.traces_namesIn {K : String → Prop} :
    ∀ r : Region, (∀ n ∈ r.names, K n) → ∀ t, r.Traces t → ∀ e ∈ t, e.NamesIn K
  | .mk blocks edges start, h, t, ht => by
      obtain ⟨u, rfl, hu⟩ := ht
      intro e hmem
      rcases mem_cons.mp hmem with rfl | hmem
      · trivial
      · rcases hu with ⟨-, rfl⟩ | hu
        · simp at hmem
        · exact hu.forall_mem (Q := fun e => e.NamesIn K)
            (fun S hS t ht => blocks_traces_namesIn blocks
              (fun n hn => h n (mem_append_left _ hn)) S hS t ht)
            (namesIn_leave (fun n hn => h n (mem_append_right _ hn))) e hmem
theorem blocks_traces_namesIn {K : String → Prop} :
    ∀ blocks : List Block, (∀ n ∈ blocksNames blocks, K n) →
      ∀ S ∈ blockTraces blocks, ∀ t, S t → ∀ e ∈ t, e.NamesIn K
  | [], _, S, hS => by simp [blockTraces] at hS
  | b :: bs, h, S, hS => by
      rcases mem_cons.mp hS with rfl | hS
      · exact Block.traces_namesIn b (fun n hn => h n (mem_append_left _ hn))
      · exact blocks_traces_namesIn bs (fun n hn => h n (mem_append_right _ hn)) S hS
end

mutual
theorem Block.executes_namesIn {K : String → Prop} :
    ∀ b : Block, (∀ n ∈ b.names, K n) →
      ∀ s, b.Executes s → ∀ seg ∈ s, ∀ e ∈ seg.events, e.NamesIn K
  | .state nodes, h, s, hs => by
      obtain ⟨vals, rfl⟩ := hs
      intro seg hseg
      rw [mem_singleton.mp hseg]
      exact namesIn_state (fun n hn => h _ (mem_map.mpr ⟨n, hn, rfl⟩)) vals
  | .conditional branches, h, s, hs => branches_executes_namesIn branches h s hs
  | .loop _ header body, h, s, hs => by
      obtain ⟨iters, hiters, rfl⟩ := hs
      have htests := namesIn_tests (fun n hn => h n (mem_append_left _ hn))
      intro seg hseg
      rcases mem_cons.mp hseg with rfl | hseg
      · exact htests
      · obtain ⟨i, hi, hseg⟩ := mem_flatMap.mp hseg
        simp only [mem_cons, not_mem_nil, or_false] at hseg
        rcases hseg with rfl | rfl
        · exact Region.traces_namesIn body (fun n hn => h n (mem_append_right _ hn)) i
            (hiters i hi)
        · exact htests
theorem branches_executes_namesIn {K : String → Prop} :
    ∀ branches : List Branch, (∀ n ∈ branchNames branches, K n) →
      ∀ s, branchExecutes branches s → ∀ seg ∈ s, ∀ e ∈ seg.events, e.NamesIn K
  | [], _, s, hs => by
      obtain rfl : s = [] := hs
      simp
  | .mk cond body :: rest, h, s, hs => by
      simp only [branchNames, mem_append] at h
      rcases hs with ⟨u, hu, rfl⟩ | ⟨-, u, hu, rfl⟩ <;> intro seg hseg <;>
        rcases mem_cons.mp hseg with rfl | hseg
      · exact namesIn_tests (fun n hn => h n (Or.inl (Or.inl hn)))
      · exact Region.executes_namesIn body (fun n hn => h n (Or.inl (Or.inr hn))) u hu seg hseg
      · exact namesIn_tests (fun n hn => h n (Or.inl (Or.inl hn)))
      · exact branches_executes_namesIn rest (fun n hn => h n (Or.inr hn)) u hu seg hseg
theorem Region.executes_namesIn {K : String → Prop} :
    ∀ r : Region, (∀ n ∈ r.names, K n) →
      ∀ s, r.Executes s → ∀ seg ∈ s, ∀ e ∈ seg.events, e.NamesIn K
  | .mk blocks edges start, h, s, hs => by
      rcases hs with ⟨-, rfl⟩ | hs
      · simp
      · refine hs.forall_mem (Q := fun seg => ∀ e ∈ seg.events, e.NamesIn K)
          (fun S hS t ht => blocks_executes_namesIn blocks
            (fun n hn => h n (mem_append_left _ hn)) S hS t ht) ?_
        intro b seg hseg
        rw [mem_singleton.mp hseg]
        exact namesIn_leave (fun n hn => h n (mem_append_right _ hn)) b
theorem blocks_executes_namesIn {K : String → Prop} :
    ∀ blocks : List Block, (∀ n ∈ blocksNames blocks, K n) →
      ∀ S ∈ blockExecutes blocks, ∀ s, S s → ∀ seg ∈ s, ∀ e ∈ seg.events, e.NamesIn K
  | [], _, S, hS => by simp [blockExecutes] at hS
  | b :: bs, h, S, hS => by
      rcases mem_cons.mp hS with rfl | hS
      · exact Block.executes_namesIn b (fun n hn => h n (mem_append_left _ hn))
      · exact blocks_executes_namesIn bs (fun n hn => h n (mem_append_right _ hn)) S hS
end

/-! ## Values -/

/-- The accesses of an execution, in order. -/
def accesses (s : List Segment) : List Event := s.flatMap Segment.events

theorem readValues_append (t u : List Event) (σ : String → ℤ) :
    readValues (t ++ u) σ = readValues t σ ++ readValues u (storeAfter t σ) := by
  induction t generalizing σ with
  | nil => rfl
  | cons e t ih => cases e <;> simp [readValues, storeAfter, ih]

/-- A use of the scalar: a read of a state or an edge, or a test. -/
def Event.Uses (x : String) (e : Event) : Prop := e = .read x ∨ e = .test x

/-- The stores agree on the data of `K` other than the scalar. -/
def Agree (K : String → Prop) (x : String) (σ τ : String → ℤ) : Prop := ∀ n, K n → n ≠ x → τ n = σ n

variable {K : String → Prop} {x c : String}

variable {t : List Event} {σ τ : String → ℤ}

/-- An execution that leaves the scalar alone returns the same values. -/
theorem readValues_of_untouched (hK : ∀ e ∈ t, e.NamesIn K)
    (hx : ∀ e ∈ t, ¬ e.Uses x ∧ ∀ v, e ≠ .write x v) (h : Agree K x σ τ) :
    readValues t τ = readValues t σ ∧ Agree K x (storeAfter t σ) (storeAfter t τ) := by
  induction t generalizing σ τ with
  | nil => exact ⟨rfl, h⟩
  | cons e t ih =>
      have hKt : ∀ e ∈ t, e.NamesIn K := fun a ha => hK a (mem_cons_of_mem e ha)
      have hxt : ∀ e ∈ t, ¬ e.Uses x ∧ ∀ v, e ≠ .write x v :=
        fun a ha => hx a (mem_cons_of_mem e ha)
      have hKe := hK e mem_cons_self
      obtain ⟨huse, hwrite⟩ := hx e mem_cons_self
      cases e with
      | read n =>
          obtain ⟨hv, hs⟩ := ih hKt hxt h
          have hn : τ n = σ n := h n hKe (fun heq => huse (Or.inl (by rw [heq])))
          exact ⟨by simp [readValues, hn, hv], hs⟩
      | test n =>
          obtain ⟨hv, hs⟩ := ih hKt hxt h
          have hn : τ n = σ n := h n hKe (fun heq => huse (Or.inr (by rw [heq])))
          exact ⟨by simp [readValues, hn, hv], hs⟩
      | write n v =>
          refine ih hKt hxt (fun m hm hmx => ?_)
          by_cases hmn : m = n
          · subst hmn
            simp
          · simp [update_of_ne hmn, h m hm hmx]
      | reachLoop _ => exact ih hKt hxt h
      | enterRegion _ => exact ih hKt hxt h

/-- An iteration that writes the scalar before it uses it returns the same values
from the copy. -/
theorem readValues_of_covered (hc : ¬ K c) (hK : ∀ e ∈ t, e.NamesIn K)
    (h : Agree K x σ τ)
    (hcov : τ c = σ x ∨ Covered (fun e => ∃ v, e = .write x v) (Event.Uses x) t) :
    readValues (t.map (Event.rename x c)) τ = readValues t σ ∧
      Agree K x (storeAfter t σ) (storeAfter (t.map (Event.rename x c)) τ) := by
  induction t generalizing σ τ with
  | nil => exact ⟨rfl, h⟩
  | cons e t ih =>
      have hKt : ∀ e ∈ t, e.NamesIn K := fun a ha => hK a (mem_cons_of_mem e ha)
      have hKe := hK e mem_cons_self
      -- a use finds the copy up to date
      have huse : e.Uses x → τ c = σ x := by
        intro hu
        rcases hcov with heq | hcov
        · exact heq
        · obtain ⟨_, hmem, -⟩ := hcov [] e t rfl hu
          simp at hmem
      -- behind anything but a write of the scalar the rest is still covered
      have hrest : (∀ v, e ≠ .write x v) → τ c = σ x ∨
          Covered (fun e => ∃ v, e = .write x v) (Event.Uses x) t := by
        intro hne
        rcases hcov with heq | hcov
        · exact Or.inl heq
        · refine Or.inr (fun p r q ht hr => ?_)
          obtain ⟨a, ha, v, rfl⟩ := hcov (e :: p) r q (by simp [ht]) hr
          rcases mem_cons.mp ha with heq | ha
          · exact absurd heq.symm (hne v)
          · exact ⟨_, ha, v, rfl⟩
      have hname : ∀ n, K n → n ≠ x → τ (renameName x c n) = σ n := by
        intro n hn hnx
        rw [renameName, if_neg hnx]
        exact h n hn hnx
      have hnameUse : ∀ n, K n → (n = x → e.Uses x) → τ (renameName x c n) = σ n := by
        intro n hn hu
        by_cases hnx : n = x
        · rw [renameName, if_pos hnx, huse (hu hnx), hnx]
        · exact hname n hn hnx
      cases e with
      | read n =>
          obtain ⟨hv, hs⟩ := ih hKt h (hrest (by simp))
          have hn := hnameUse n hKe (fun heq => Or.inl (by rw [heq]))
          exact ⟨by simp [readValues, Event.rename, hn, hv], hs⟩
      | test n =>
          obtain ⟨hv, hs⟩ := ih hKt h (hrest (by simp))
          have hn := hnameUse n hKe (fun heq => Or.inr (by rw [heq]))
          exact ⟨by simp [readValues, Event.rename, hn, hv], hs⟩
      | write n v =>
          by_cases hnx : n = x
          · subst hnx
            refine ih hKt (fun m hm hmx => ?_) (Or.inl (by simp [renameName]))
            have hmc : m ≠ c := fun heq => hc (heq ▸ hm)
            simp [renameName, update_of_ne hmc, update_of_ne hmx, h m hm hmx]
          · have hcn : c ≠ n := fun heq => hc (heq ▸ hKe)
            refine ih hKt (fun m hm hmx => ?_) ?_
            · by_cases hmn : m = n
              · subst hmn
                simp [renameName, hmx]
              · simp [renameName, hnx, update_of_ne hmn, h m hm hmx]
            · have hw : ∀ v', (Event.write n v) ≠ .write x v' := by
                intro v' heq
                exact hnx (Event.write.inj heq).1
              have hnx' : x ≠ n := fun heq => hnx heq.symm
              simpa [renameName, hnx, update_of_ne hcn, update_of_ne hnx'] using
                hrest hw
      | reachLoop _ => exact ih hKt h (hrest (by simp))
      | enterRegion _ => exact ih hKt h (hrest (by simp))

/-! ## Flow into an iteration -/

/-- No value of the scalar flows into an iteration or out of one: outside the
loops it is not used, and every use in an iteration comes after a write of the
same iteration. -/
def NoFlow (x : String) (s : List Segment) : Prop :=
  ∀ seg ∈ s, match seg with
    | .outside t => ∀ e ∈ t, ¬ e.Uses x
    | .iteration _ _ t => Covered (fun e => ∃ v, e = .write x v) (Event.Uses x) t

/-- An ungrouped loop leaves the scalar alone. -/
theorem not_accesses_of_not_grouped {body : Region} (hg : grouped x body = false)
    (he : body.edgesRead x = false) (ht : body.Traces t) :
    ∀ e ∈ t, ¬ e.Accesses x := by
  unfold grouped at hg
  rw [Bool.or_eq_false_iff] at hg
  exact Region.not_accesses body hg.1 he hg.2 t ht

/-- A covered trace that does not access the scalar does not use it either. -/
theorem untouched_of_covered
    (hcov : Covered (fun e => ∃ v, e = .write x v) (Event.Uses x) t)
    (hacc : ∀ e ∈ t, ¬ e.Accesses x) : ∀ e ∈ t, ¬ e.Uses x ∧ ∀ v, e ≠ .write x v := by
  intro e he
  refine ⟨fun huse => ?_, fun v hv => hacc e he (Or.inr ⟨v, hv⟩)⟩
  obtain ⟨p, q, rfl⟩ := append_of_mem he
  obtain ⟨a, ha, v, rfl⟩ := hcov p e q rfl huse
  exact hacc _ (mem_append_left _ ha) (Or.inr ⟨v, rfl⟩)

/-- One segment and its copy return the same values. -/
theorem readValues_segment_split {seg : Segment}
    (hK : ∀ e ∈ seg.events, e.NamesIn K) (hun : seg.Untouched x loops) (hflow : NoFlow x [seg])
    (hcopies : ∀ l ∈ loops, grouped x l.body = true → ¬ K (copyName x l.label))
    (h : Agree K x σ τ) :
    readValues (seg.split x).events τ = readValues seg.events σ ∧
      Agree K x (storeAfter seg.events σ) (storeAfter (seg.split x).events τ) := by
  have hflow := hflow seg (mem_singleton_self seg)
  cases seg with
  | outside t =>
      refine readValues_of_untouched hK (fun e he => ⟨hflow e he, fun v hv => ?_⟩) h
      exact hun e he (Or.inr ⟨v, hv⟩)
  | iteration label body t =>
      obtain ⟨⟨header, hmem⟩, ht, hedges⟩ := hun
      cases hg : grouped x body with
      | true =>
          have hc := hcopies _ hmem hg
          simpa [Segment.split, hg, Segment.events] using
            readValues_of_covered hc hK h (Or.inr hflow)
      | false =>
          have hacc := not_accesses_of_not_grouped hg hedges ht
          simpa [Segment.split, hg, Segment.events] using
            readValues_of_untouched hK (untouched_of_covered hflow hacc) h

/-- **The split returns the same values** when nothing flows into an iteration. -/
theorem readValues_split
    (hK : ∀ seg ∈ s, ∀ e ∈ seg.events, e.NamesIn K) (hun : ∀ seg ∈ s, seg.Untouched x loops)
    (hflow : NoFlow x s)
    (hcopies : ∀ l ∈ loops, grouped x l.body = true → ¬ K (copyName x l.label))
    (h : Agree K x σ τ) :
    readValues (accesses (s.map (Segment.split x))) τ = readValues (accesses s) σ := by
  induction s generalizing σ τ with
  | nil => rfl
  | cons seg s ih =>
      have hone : NoFlow x [seg] := by
        intro a ha
        rw [mem_singleton.mp ha]
        exact hflow seg mem_cons_self
      obtain ⟨hv, hagree⟩ := readValues_segment_split (hK seg mem_cons_self)
        (hun seg mem_cons_self) hone hcopies h
      have hrest := ih (fun a ha => hK a (mem_cons_of_mem seg ha))
        (fun a ha => hun a (mem_cons_of_mem seg ha))
        (fun a ha => hflow a (mem_cons_of_mem seg ha)) hagree
      simp only [accesses, map_cons, flatMap_cons] at hrest ⊢
      rw [readValues_append, readValues_append, hv, hrest]

/-! ## The copies -/

/-- The copies that were added are new names. -/
theorem copyName_notMem_of_addCopies {desc : Desc} {ls : List OuterLoop}
    {arrays arrays' : List (String × Desc)} (h : addCopies x desc ls arrays = .ok arrays') :
    ∀ l ∈ ls, copyName x l.label ∉ arrays.map Prod.fst := by
  induction ls generalizing arrays with
  | nil => simp
  | cons l ls ih =>
      rw [addCopies] at h
      split_ifs at h with hmem
      intro l' hl' hmem'
      rcases mem_cons.mp hl' with rfl | hl'
      · exact hmem hmem'
      · refine ih h l' hl' ?_
        rw [map_append]
        exact mem_append_left _ hmem'

/-- What a split program is. -/
theorem fissionScalar_splits {p' : Program} (hsplit : p.splits x = true)
    (h : fissionScalar p x = .ok p') :
    p'.top = p.top.split x ∧
      ∀ l ∈ p.top.loops, grouped x l.body = true → copyName x l.label ∉ p.arrays.map Prod.fst := by
  unfold fissionScalar at h
  rw [if_pos hsplit] at h
  cases hadd : addCopies x (((p.arrays.find? (fun a => a.1 == x)).map Prod.snd).getD ⟨true, 1⟩)
      (groups x p.top) p.arrays with
  | error e => simp [hadd, bind, Except.bind] at h
  | ok arrays =>
      simp only [hadd, bind, Except.bind, pure, Except.pure, Except.ok.injEq] at h
      refine ⟨by rw [← h], fun l hl hg => ?_⟩
      exact copyName_notMem_of_addCopies hadd l (mem_filter.mpr ⟨hl, hg⟩)

/-- What the pass has checked of a scalar it splits. -/
theorem checked_of_splits (h : p.splits x = true) :
    p.top.outsideEdges x = false ∧ p.top.outsideStates x = false ∧
      ∀ l ∈ p.top.loops, grouped x l.body = true → (l.body.scan x false).1 = true := by
  simp only [Program.splits, Bool.and_eq_true, Bool.not_eq_true', all_eq_true] at h
  obtain ⟨⟨⟨⟨-, hedges⟩, hstates⟩, -⟩, hall⟩ := h
  exact ⟨hedges, hstates, fun l hl hg => (hall l (mem_filter.mpr ⟨hl, hg⟩)).2⟩

/-! ## The main result -/

/-- The rewritten program does, up to the names of the copies, what the program
does: every read returns the same value whatever the scalar and its copies held,
and no value flows into an iteration. -/
def Program.Preserves (p p' : Program) (x : String) : Prop :=
  ∀ s, p.top.Executes s →
    p'.top.Executes (s.map (Segment.split x)) ∧
      (∀ σ τ : String → ℤ, Agree (fun n => n ∈ p.arrays.map Prod.fst) x σ τ →
        readValues (accesses (s.map (Segment.split x))) τ = readValues (accesses s) σ) ∧
      NoFlow x s

/-- No execution reaches a use of the scalar through a blind spot: no condition
or loop header outside the iterations names it, and in an iteration neither a
condition that names it nor a read behind a blind spot is reached before a write. -/
def Program.SplitsSafely (p : Program) (x : String) : Prop :=
  ∀ s, p.top.Executes s → ∀ seg ∈ s, match seg with
    | .outside t => .test x ∉ t
    | .iteration _ _ t => ∀ e q r, t = q ++ e :: r →
        e = .test x ∨ (e = .read x ∧ ∃ b ∈ q, b.Blind x) → ∃ v, .write x v ∈ q

mutual
/-- The outermost loops of structured control flow have structured bodies. -/
theorem Block.structured_of_mem_loops :
    ∀ b : Block, b.Structured → ∀ l ∈ b.loops, l.body.Structured
  | .state _, _, l, hl => by simp [Block.loops] at hl
  | .conditional branches, h, l, hl => branches_structured_of_mem_loops branches h l hl
  | .loop _ _ body, h, l, hl => by
      rw [mem_singleton.mp hl]
      exact h
theorem branches_structured_of_mem_loops :
    ∀ branches : List Branch, branchesStructured branches →
      ∀ l ∈ branchesLoops branches, l.body.Structured
  | [], _, l, hl => by simp [branchesLoops] at hl
  | .mk _ body :: rest, h, l, hl => by
      rcases mem_append.mp hl with hl | hl
      · exact Region.structured_of_mem_loops body h.1 l hl
      · exact branches_structured_of_mem_loops rest h.2 l hl
theorem Region.structured_of_mem_loops :
    ∀ r : Region, r.Structured → ∀ l ∈ r.loops, l.body.Structured
  | .mk blocks _ _, h, l, hl => blocks_structured_of_mem_loops blocks h.2 l hl
theorem blocks_structured_of_mem_loops :
    ∀ blocks : List Block, blocksStructured blocks → ∀ l ∈ blocksLoops blocks, l.body.Structured
  | [], _, l, hl => by simp [blocksLoops] at hl
  | b :: bs, h, l, hl => by
      rcases mem_append.mp hl with hl | hl
      · exact Block.structured_of_mem_loops b h.1 l hl
      · exact blocks_structured_of_mem_loops bs h.2 l hl
end

/-- In a safely split program nothing flows into an iteration. -/
theorem noFlow_of_splitsSafely (hwf : p.WellFormed) (hsplit : p.splits x = true)
    (hsafe : p.SplitsSafely x) (hs : p.top.Executes s) : NoFlow x s := by
  obtain ⟨hedges, hstates, hscans⟩ := checked_of_splits hsplit
  intro seg hseg
  have hun := Region.segments p.top hstates hedges s hs seg hseg
  have hsafe := hsafe s hs seg hseg
  cases seg with
  | outside t =>
      rintro e he (rfl | rfl)
      · exact hun _ he (Or.inl rfl)
      · exact hsafe he
  | iteration label body t =>
      obtain ⟨⟨header, hmem⟩, ht, hbody⟩ := hun
      show Covered _ _ t
      intro q e r heq huse
      rcases huse with rfl | rfl
      · cases hg : grouped x body with
        | false =>
            -- an ungrouped loop reads nothing
            refine absurd (Or.inl rfl) (not_accesses_of_not_grouped hg hbody ht (.read x) ?_)
            rw [heq]
            exact mem_append_right _ mem_cons_self
        | true =>
            have hsound := Region.sound x body
              (Region.structured_of_mem_loops p.top hwf.structured _ hmem)
            obtain ⟨b, hb, hdef⟩ := hsound.covered (hscans _ hmem hg) t ht q (.read x) r heq rfl
            rcases hdef with ⟨v, rfl⟩ | hblind
            · exact ⟨_, hb, v, rfl⟩
            · obtain ⟨v, hv⟩ := hsafe _ q r heq (Or.inr ⟨rfl, b, hb, hblind⟩)
              exact ⟨_, hv, v, rfl⟩
      · obtain ⟨v, hv⟩ := hsafe _ q r heq (Or.inl rfl)
        exact ⟨_, hv, v, rfl⟩

/-- **Correctness of the fission, exactly.**  Splitting a scalar keeps every value
and lets none flow between iterations iff no execution reaches a use of it through
a blind spot of the scan. -/
theorem fissionScalar_preserves_iff {p p' : Program} {x : String} (hwf : p.WellFormed)
    (hsplit : p.splits x = true) (h : fissionScalar p x = .ok p') :
    p.Preserves p' x ↔ p.SplitsSafely x := by
  constructor
  · intro hpres s hs seg hseg
    have hflow := (hpres s hs).2.2 seg hseg
    cases seg with
    | outside t => exact fun hmem => hflow _ hmem (Or.inr rfl)
    | iteration label body t =>
        intro e q r heq he
        have huse : e.Uses x := by
          rcases he with rfl | ⟨rfl, -⟩
          · exact Or.inr rfl
          · exact Or.inl rfl
        obtain ⟨_, hw, v, rfl⟩ := hflow q e r heq huse
        exact ⟨v, hw⟩
  · intro hsafe s hs
    obtain ⟨hedges, hstates, hscans⟩ := checked_of_splits hsplit
    obtain ⟨htop, hcopies⟩ := fissionScalar_splits hsplit h
    have hflow := noFlow_of_splitsSafely hwf hsplit hsafe hs
    refine ⟨?_, ?_, hflow⟩
    · rw [htop]
      exact Region.executes_split p.top
        (fun l hl hg => Region.headersClear l.body (hscans l hl hg)) s hs
    · intro σ τ hagree
      exact readValues_split (Region.executes_namesIn p.top hwf.names s hs)
        (Region.segments p.top hstates hedges s hs) hflow hcopies hagree

/-- A loop that writes `t` and reads it back. -/
def writeThenRead : Program where
  arrays := [("t", ⟨true, 1⟩)]
  top := .mk [.loop "i" [] (.mk [.state [⟨"t", true, true⟩]] [] 0)] [] 0

/-- The loop with its copy. -/
def writeThenReadSplit : Program where
  arrays := [(copyName "t" "i", ⟨true, 1⟩)]
  top := .mk [.loop "i" [] (.mk [.state [⟨copyName "t" "i", true, true⟩]] [] 0)] [] 0

/-- An iteration of the loop writes before it reads. -/
theorem traces_writeThenRead
    (h : (Region.mk [.state [⟨"t", true, true⟩]] [] 0).Traces t) :
    ∃ r v, t = [.enterRegion r, .write "t" v, .read "t"] := by
  obtain ⟨u, rfl, ⟨hnil, -⟩ | hu⟩ := h
  · simp at hnil
  · cases hu with
    | stop hS ht _ =>
        obtain rfl : (Block.state [⟨"t", true, true⟩]).Traces = _ := by simpa [blockTraces] using hS
        obtain ⟨vals, rfl⟩ := ht
        exact ⟨.mk [.state [⟨"t", true, true⟩]] [] 0, vals 0, by simp [stateTrace]⟩
    | step _ _ he _ _ => simp at he

theorem splitsSafely_writeThenRead : writeThenRead.SplitsSafely "t" := by
  intro s hs seg hseg
  rcases hs with ⟨hnil, -⟩ | hs
  · simp at hnil
  · cases hs with
    | stop hS ht _ =>
        obtain rfl : (Block.loop "i" [] (.mk [.state [⟨"t", true, true⟩]] [] 0)).Executes = _ := by
          simpa [blockExecutes] using hS
        obtain ⟨iters, hiters, rfl⟩ := ht
        rcases mem_cons.mp hseg with rfl | hseg
        · simp [tests]
        · obtain ⟨i, hi, hseg⟩ := mem_flatMap.mp hseg
          simp only [mem_cons, not_mem_nil, or_false] at hseg
          rcases hseg with rfl | rfl
          · obtain ⟨r, v, rfl⟩ := traces_writeThenRead (hiters i hi)
            intro e q rest heq he
            match q, heq with
            | [], heq =>
                obtain ⟨rfl, -⟩ := List.cons.inj heq
                simp at he
            | [_], heq =>
                simp only [cons_append, nil_append, List.cons.injEq] at heq
                obtain ⟨-, rfl, -⟩ := heq
                simp at he
            | [_, _], heq =>
                simp only [cons_append, nil_append, List.cons.injEq] at heq
                exact ⟨v, by rw [← heq.2.1]; simp⟩
            | _ :: _ :: _ :: _, heq => simp at heq
          · simp [tests]
    | step _ _ he _ _ => simp at he

theorem fissionScalar_preserves_writeThenRead :
    writeThenRead.Preserves writeThenReadSplit "t" :=
  (fissionScalar_preserves_iff ⟨by simp [writeThenRead, Region.Structured, blocksStructured,
    Block.Structured], by decide⟩ (by decide) rfl).mpr splitsSafely_writeThenRead

/-! An outer loop whose inner loop reads `t` before it writes it, behind a loop
that wrote `t`: the scan takes the inner loop to define `t` for its own first
iteration. -/

/-- The body of the inner loop. -/
def innerReads : Region :=
  .mk [.state [⟨"t", false, true⟩], .state [⟨"t", true, false⟩]] [⟨0, 1, []⟩] 0

def readsAcross : Program where
  arrays := [("t", ⟨true, 1⟩)]
  top := .mk [.loop "i" [] (.mk [.state [⟨"t", true, false⟩]] [] 0),
    .loop "k" [] (.mk [.loop "j" [] innerReads] [] 0)] [⟨0, 1, []⟩] 0

/-- The copy the second loop reads was never written. -/
theorem not_preserves_readsAcross : readsAcross.splits "t" = true ∧
    ∃ p', fissionScalar readsAcross "t" = .ok p' ∧ ¬ readsAcross.Preserves p' "t" := by
  refine ⟨by decide, _, rfl, fun hpres => ?_⟩
  let first : Region := .mk [.state [⟨"t", true, false⟩]] [] 0
  let second : Region := .mk [.loop "j" [] innerReads] [] 0
  let inner : List Event := [.enterRegion innerReads, .read "t", .write "t" 2]
  have hwrite : first.Traces [.enterRegion first, .write "t" 1] :=
    ⟨_, rfl, Or.inr (.single ⟨fun _ => 1, rfl⟩)⟩
  have hinner : innerReads.Traces inner :=
    ⟨[.read "t"] ++ (leave [⟨0, 1, []⟩] 0 ++ [.write "t" 2]), rfl,
      Or.inr (.pair ⟨fun _ => 0, rfl⟩ ⟨fun _ => 2, rfl⟩)⟩
  have hreads : second.Traces (.enterRegion second :: .reachLoop innerReads :: inner) :=
    ⟨_, rfl, Or.inr (.single ⟨[inner], by simpa using hinner, rfl⟩)⟩
  have hfirst : (Block.loop "i" [] first).Executes
      [.outside [], .iteration "i" first [.enterRegion first, .write "t" 1], .outside []] :=
    ⟨[_], by simpa using hwrite, rfl⟩
  have hsecond : (Block.loop "k" [] second).Executes
      [.outside [], .iteration "k" second (.enterRegion second :: .reachLoop innerReads :: inner),
        .outside []] :=
    ⟨[_], by simpa using hreads, rfl⟩
  have hvalues := (hpres _ (Or.inr (.pair hfirst hsecond))).2.1 (fun _ => 0) (fun _ => 0)
    (fun _ _ _ => rfl)
  revert hvalues
  decide

end Fission
