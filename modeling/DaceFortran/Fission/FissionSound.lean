/-
# When the fission of a scalar keeps its values

The scan of `loop_scalar_fission` answers whether every read of the scalar comes
after a write of the same iteration.  It is sound for the reads of states and
edges (`Region.sound`) up to three blind spots: an inner loop whose body defines
the scalar counts as defining it, on exit and for its own first iteration; a
region whose rounds have not settled; and conditions, which it does not look at.
`fissionScalar_preserves_iff` says that these are all: a split keeps every value
exactly when no iteration reaches a read through a blind spot.
-/
import DaceFortran.Fission.LoopScalarFission

open List

namespace Fission

open FlowGraph

/-! ## Blind spots -/

/-- The rounds over the region's graph reach their fixpoint. -/
def Region.Settled (x : String) : Region → Prop
  | .mk blocks edges _ =>
      FlowGraph.Settled (blockExits x blocks) edges false
        (solve (blockExits x blocks) edges false fixpointRounds)

/-- Where the scan takes the scalar to be defined without a write: at an inner
loop whose body ends with the scalar defined, and in a region whose rounds stop
before their fixpoint. -/
def Event.Blind (x : String) : Event → Prop
  | .reachLoop body => (body.scan x false).2 = true
  | .enterRegion r => ¬ r.Settled x
  | _ => False

/-- What the scan takes for a definition: a write or a blind spot. -/
def Event.Defines (x : String) (e : Event) : Prop := (∃ v, e = .write x v) ∨ e.Blind x

/-- What the scan looks for: the reads of states and edges. -/
def Event.Reads (x : String) (e : Event) : Prop := e = .read x

/-! ## Soundness of the scan -/

variable {x : String}

theorem reads_tests {names : List String} : ∀ r ∈ tests names, ¬ r.Reads x := by
  intro r hr h
  obtain ⟨n, -, rfl⟩ := mem_map.mp hr
  cases h

/-- A trace behind a blind spot is covered. -/
theorem covered_of_blind {e : Event} {t : List Event} (he : e.Blind x)
    (hne : ¬ e.Reads x) : Covered (Event.Defines x) (Event.Reads x) (e :: t) := by
  have hone : Covered (Event.Defines x) (Event.Reads x) [e] :=
    covered_of_forall_not (by simpa using hne)
  exact hone.append (Or.inl ⟨e, mem_singleton_self e, Or.inr he⟩)

theorem covered_flatMap {β : Type*} {l : List β} {f : β → List Event}
    (h : ∀ a ∈ l, Covered (Event.Defines x) (Event.Reads x) (f a)) :
    Covered (Event.Defines x) (Event.Reads x) (l.flatMap f) := by
  induction l with
  | nil => exact covered_nil
  | cons a l ih =>
      exact (h a mem_cons_self).append
        (Or.inr (ih (fun c hc => h c (mem_cons_of_mem a hc))))

/-- A state covers the reads of its own writes. -/
theorem state_sound (x : String) (nodes : List AccessNode) :
    Transfer.Sound (Event.Defines x) (Event.Reads x) ((Block.state nodes).exit x)
      (Block.state nodes).Traces := by
  refine ⟨?_, ?_⟩
  · rintro hok t ⟨vals, rfl⟩
    have huncovered : ∀ n ∈ nodes, n.data = x → n.written = false → n.read = false := by
      simpa [Block.exit, stateAccess] using hok
    refine Covered.append (covered_of_forall_not ?_) (Or.inr (covered_flatMap ?_))
    · intro r hr hreads
      obtain ⟨n, hn, rfl⟩ := mem_map.mp hr
      simp only [mem_filter, Bool.and_eq_true, Bool.not_eq_true'] at hn
      have hdata : n.data = x := by simpa [Event.Reads] using hreads
      have := huncovered n hn.1 hdata hn.2.1
      simp [this] at hn
    · rintro ⟨n, i⟩ -
      dsimp only
      split_ifs
      · -- the node is written just before it is read
        refine Covered.append (t := [Event.write n.data (vals i)])
          (covered_of_forall_not (by simp [Event.Reads])) ?_
        by_cases hdata : n.data = x
        · exact Or.inl ⟨_, mem_singleton_self _, Or.inl ⟨vals i, by rw [hdata]⟩⟩
        · exact Or.inr (covered_of_forall_not (by simp [Event.Reads, hdata]))
      · refine Covered.append (t := [Event.write n.data (vals i)]) (u := [])
          (covered_of_forall_not (by simp [Event.Reads])) (Or.inr covered_nil)
      · exact covered_nil
  · rintro hexit t ⟨vals, rfl⟩
    obtain ⟨n, hn, hdata, hw⟩ : ∃ n ∈ nodes, n.data = x ∧ n.written = true := by
      simpa [Block.exit, stateAccess] using hexit
    obtain ⟨i, hi⟩ := mem_iff_getElem?.mp hn
    refine ⟨.write x (vals i), ?_, Or.inl ⟨_, rfl⟩⟩
    refine mem_append_right _ (mem_flatMap.mpr ⟨(n, i), ?_, ?_⟩)
    · exact mem_zipIdx_iff_getElem?.mpr hi
    · simp [hw, hdata]

theorem length_blockExits (x : String) (blocks : List Block) :
    (blockExits x blocks).length = (blockTraces blocks).length := by
  induction blocks with
  | nil => rfl
  | cons b bs ih => simp [blockExits, blockTraces, ih]

/-- A scan that reports the loop body undefined at its end is the result. -/
theorem loopRounds_of_undefined {scan : Transfer} (h : (scan false).2 = false) :
    loopRounds scan false fixpointRounds false (true, false) = ((scan false).1, false) := by
  simp [fixpointRounds, loopRounds, h]

mutual
/-- **The scan of a block is sound.** -/
theorem Block.sound (x : String) :
    ∀ b : Block, b.Structured →
      Transfer.Sound (Event.Defines x) (Event.Reads x) (b.exit x) b.Traces
  | .state nodes, _ => state_sound x nodes
  | .conditional branches, h => by
      obtain ⟨hcov, hexit⟩ := branches_sound x branches h
      refine ⟨fun hok t ht => hcov hok t ht, fun hex t ht => ?_⟩
      simp only [Block.exit, Bool.false_and] at hex
      split_ifs at hex with helse
      rw [Bool.and_eq_true] at helse
      exact hexit helse.1 hex t ht
  | .loop label header body, h => by
      have hbody := Region.sound x body h
      by_cases hheader : x ∈ header
      · refine ⟨fun hok => ?_, fun hex => ?_⟩ <;> simp [Block.exit, hheader] at *
      · cases hdef : (body.scan x false).2 with
        | true =>
            have hblind : (Event.reachLoop body).Blind x := hdef
            refine ⟨?_, ?_⟩
            · rintro - t ⟨iters, -, rfl⟩
              exact covered_of_blind hblind (by simp [Event.Reads])
            · rintro - t ⟨iters, -, rfl⟩
              exact ⟨_, mem_cons_self, Or.inr hblind⟩
        | false =>
            have hresult : (Block.loop label header body).exit x false =
                ((body.scan x false).1, false) := by
              simp only [Block.exit, hheader, if_false]
              exact loopRounds_of_undefined hdef
            refine ⟨?_, fun hex => by rw [hresult] at hex; simp at hex⟩
            rintro hok t ⟨iters, hiters, rfl⟩
            rw [hresult] at hok
            refine Covered.append (t := [Event.reachLoop body])
              (covered_of_forall_not (by simp [Event.Reads])) (Or.inr ?_)
            refine Covered.append (covered_of_forall_not reads_tests)
              (Or.inr (covered_flatMap (fun i hi => ?_)))
            exact (hbody.covered hok i (hiters i hi)).append
              (Or.inr (covered_of_forall_not reads_tests))
theorem branches_sound (x : String) :
    ∀ branches : List Branch, branchesStructured branches →
      ((branchScans x branches false).all Prod.fst = true →
        ∀ t, branchTraces branches t → Covered (Event.Defines x) (Event.Reads x) t) ∧
      (hasElse branches = true → (branchScans x branches false).all Prod.snd = true →
        ∀ t, branchTraces branches t → ∃ e ∈ t, e.Defines x)
  | [], _ => by
      refine ⟨?_, by simp [hasElse]⟩
      rintro - t rfl
      exact covered_nil
  | .mk cond body :: rest, h => by
      have hbody := Region.sound x body h.1
      obtain ⟨hcov, hexit⟩ := branches_sound x rest h.2
      refine ⟨?_, ?_⟩
      · intro hok t ht
        simp only [branchScans, all_cons, Bool.and_eq_true] at hok
        rcases ht with ⟨u, hu, rfl⟩ | ⟨-, u, hu, rfl⟩
        · exact (covered_of_forall_not reads_tests).append (Or.inr (hbody.covered hok.1 u hu))
        · exact (covered_of_forall_not reads_tests).append (Or.inr (hcov hok.2 u hu))
      · intro helse hex t ht
        simp only [branchScans, all_cons, Bool.and_eq_true] at hex
        rcases ht with ⟨u, hu, rfl⟩ | ⟨hcond, u, hu, rfl⟩
        · obtain ⟨e, he, hdef⟩ := hbody.exit hex.1 u hu
          exact ⟨e, mem_append_right _ he, hdef⟩
        · have helse' : hasElse rest = true := by
            cases cond with
            | none => exact absurd rfl hcond
            | some c => simpa [hasElse] using helse
          obtain ⟨e, he, hdef⟩ := hexit helse' hex.2 u hu
          exact ⟨e, mem_append_right _ he, hdef⟩
/-- **The scan of a region is sound.** -/
theorem Region.sound (x : String) :
    ∀ r : Region, r.Structured →
      Transfer.Sound (Event.Defines x) (Event.Reads x) (r.scan x) r.Traces
  | .mk blocks edges start, h => by
      obtain ⟨hstart, hblocks⟩ := h
      have hsound := blocks_sound x blocks hblocks
      by_cases hset : (Region.mk blocks edges start).Settled x
      · -- a settled region: soundness along its runs, which start undefined
        have hentry : entryOf edges false (solve (blockExits x blocks) edges false fixpointRounds)
            start = false := by
          have hnone : edges.filter (fun e => e.dst == start) = [] := by
            simpa using hstart
          simp [entryOf, hnone]
        have hwalk : ∀ u, Walk (blockTraces blocks) edges (leave edges) start u →
            (blocksOk (blockExits x blocks) edges false
                (solve (blockExits x blocks) edges false fixpointRounds) = true →
              (∀ b, ∀ r ∈ leave edges b, r.Reads x →
                solve (blockExits x blocks) edges false fixpointRounds b = true) →
              Covered (Event.Defines x) (Event.Reads x) [.enterRegion (.mk blocks edges start)] →
              Covered (Event.Defines x) (Event.Reads x)
                ([.enterRegion (.mk blocks edges start)] ++ u)) ∧
            (exitOf (blockExits x blocks) edges false
                (solve (blockExits x blocks) edges false fixpointRounds) = true →
              ∃ e ∈ [.enterRegion (.mk blocks edges start)] ++ u, e.Defines x) := by
          intro u hu
          refine Walk.covered (length_blockExits x blocks) hsound hset hu ?_
          intro hv
          simp [hentry] at hv
        have hfirst : Covered (Event.Defines x) (Event.Reads x)
            [.enterRegion (.mk blocks edges start)] :=
          covered_of_forall_not (by simp [Event.Reads])
        refine ⟨?_, ?_⟩
        · rintro hok t ⟨u, rfl, ⟨-, rfl⟩ | hu⟩
          · exact hfirst
          · have hne : (blockExits x blocks).isEmpty = false := by
              cases blocks with
              | nil => cases hu <;> simp [blockTraces] at *
              | cons b bs => rfl
            simp only [Region.scan, hne, Bool.false_eq_true, if_false, Bool.and_eq_true] at hok
            refine (hwalk u hu).1 hok.1 ?_ hfirst
            rintro b r hr rfl
            obtain ⟨e, he, hre⟩ := mem_flatMap.mp hr
            rw [mem_filter] at he
            have hx : x ∈ e.data := by simpa using hre
            have hedge := all_eq_true.mp hok.2 e he.1
            have hsrc : e.src = b := by simpa using he.2
            simpa [hx, hsrc] using hedge
        · rintro hex t ⟨u, rfl, ⟨rfl, rfl⟩ | hu⟩
          · simp [Region.scan, blockExits] at hex
          · have hne : (blockExits x blocks).isEmpty = false := by
              cases blocks with
              | nil => cases hu <;> simp [blockTraces] at *
              | cons b bs => rfl
            simp only [Region.scan, hne, Bool.false_eq_true, if_false] at hex
            exact (hwalk u hu).2 hex
      · have hblind : (Event.enterRegion (.mk blocks edges start)).Blind x := hset
        refine ⟨?_, ?_⟩
        · rintro - t ⟨u, rfl, -⟩
          exact covered_of_blind hblind (by simp [Event.Reads])
        · rintro - t ⟨u, rfl, -⟩
          exact ⟨_, mem_cons_self, Or.inr hblind⟩
theorem blocks_sound (x : String) :
    ∀ blocks : List Block, blocksStructured blocks →
      ∀ (i : ℕ) (f : Transfer) (S : List Event → Prop), (blockExits x blocks)[i]? = some f →
        (blockTraces blocks)[i]? = some S → Transfer.Sound (Event.Defines x) (Event.Reads x) f S
  | [], _, _, _, _, hf, _ => by simp [blockExits] at hf
  | b :: bs, h, 0, f, S, hf, hS => by
      have hf' : b.exit x = f := by simpa [blockExits] using hf
      have hS' : b.Traces = S := by simpa [blockTraces] using hS
      rw [← hf', ← hS']
      exact Block.sound x b h.1
  | b :: bs, h, i + 1, f, S, hf, hS =>
      blocks_sound x bs h.2 i f S (by simpa [blockExits] using hf) (by simpa [blockTraces] using hS)
end

/-! ## What executions access -/

/-- A state or an edge accesses the scalar. -/
def Event.Accesses (x : String) (e : Event) : Prop := e = .read x ∨ ∃ v, e = .write x v

theorem not_accesses_tests {names : List String} :
    ∀ e ∈ tests names, ¬ e.Accesses x := by
  rintro e he (h | ⟨v, h⟩) <;> obtain ⟨n, -, rfl⟩ := mem_map.mp he <;> cases h

theorem not_accesses_state {nodes : List AccessNode}
    (h : nodes.any (fun n => n.data == x) = false) (vals : ℕ → ℤ) :
    ∀ e ∈ stateTrace nodes vals, ¬ e.Accesses x := by
  have hne : ∀ n ∈ nodes, n.data ≠ x := by simpa using h
  intro e he hacc
  rcases mem_append.mp he with he | he
  · obtain ⟨n, hn, rfl⟩ := mem_map.mp he
    have := hne n (mem_filter.mp hn).1
    simp [Event.Accesses, this] at hacc
  · obtain ⟨⟨n, i⟩, hn, he⟩ := mem_flatMap.mp he
    have := hne n (mem_of_getElem? (mem_zipIdx_iff_getElem?.mp hn))
    dsimp only at he
    split_ifs at he <;> simp at he
    · rcases he with rfl | rfl <;> simp [Event.Accesses, this] at hacc
    · subst he
      simp [Event.Accesses, this] at hacc

theorem not_accesses_leave {edges : List (Edge (List String))}
    (h : edges.any (fun e => decide (x ∈ e.data)) = false) (b : ℕ) :
    ∀ e ∈ leave edges b, ¬ e.Accesses x := by
  have hne : ∀ e ∈ edges, x ∉ e.data := by simpa using h
  intro ev hev hacc
  obtain ⟨e, he, hmem⟩ := mem_flatMap.mp hev
  obtain ⟨n, hn, rfl⟩ := mem_map.mp hmem
  have : n ≠ x := by
    rintro rfl
    exact hne e (mem_filter.mp he).1 hn
  simp [Event.Accesses, this] at hacc

mutual
/-- A block no state or edge of which touches the scalar does not access it. -/
theorem Block.not_accesses {x : String} :
    ∀ b : Block, b.touches x = false → b.nestedEdgesRead x = false →
      ∀ t, b.Traces t → ∀ e ∈ t, ¬ e.Accesses x
  | .state nodes, h, _, t, ht => by
      obtain ⟨vals, rfl⟩ := ht
      exact not_accesses_state h vals
  | .conditional branches, h, he, t, ht => branches_not_accesses branches h he t ht
  | .loop _ header body, h, he, t, ht => by
      obtain ⟨iters, hiters, rfl⟩ := ht
      simp only [Block.nestedEdgesRead, Bool.or_eq_false_iff] at he
      intro e hmem
      rcases mem_cons.mp hmem with rfl | hmem
      · rintro (h | ⟨v, h⟩) <;> cases h
      · rcases mem_append.mp hmem with hmem | hmem
        · exact not_accesses_tests e hmem
        · obtain ⟨i, hi, hmem⟩ := mem_flatMap.mp hmem
          rcases mem_append.mp hmem with hmem | hmem
          · exact Region.not_accesses body h he.1 he.2 i (hiters i hi) e hmem
          · exact not_accesses_tests e hmem
theorem branches_not_accesses {x : String} :
    ∀ branches : List Branch, branchesTouch x branches = false →
      branchesEdgesRead x branches = false →
      ∀ t, branchTraces branches t → ∀ e ∈ t, ¬ e.Accesses x
  | [], _, _, t, ht => by
      obtain rfl : t = [] := ht
      simp
  | .mk cond body :: rest, h, he, t, ht => by
      simp only [branchesTouch, branchesEdgesRead, Bool.or_eq_false_iff] at h he
      rcases ht with ⟨u, hu, rfl⟩ | ⟨-, u, hu, rfl⟩ <;> intro e hmem <;>
        rcases mem_append.mp hmem with hmem | hmem
      · exact not_accesses_tests e hmem
      · exact Region.not_accesses body h.1 he.1.1 he.1.2 u hu e hmem
      · exact not_accesses_tests e hmem
      · exact branches_not_accesses rest h.2 he.2 u hu e hmem
theorem Region.not_accesses {x : String} :
    ∀ r : Region, r.touches x = false → r.edgesRead x = false → r.nestedEdgesRead x = false →
      ∀ t, r.Traces t → ∀ e ∈ t, ¬ e.Accesses x
  | .mk blocks edges start, h, he, hn, t, ht => by
      obtain ⟨u, rfl, hu⟩ := ht
      intro e hmem
      rcases mem_cons.mp hmem with rfl | hmem
      · rintro (h | ⟨v, h⟩) <;> cases h
      · rcases hu with ⟨-, rfl⟩ | hu
        · simp at hmem
        · exact hu.forall_mem (Q := fun e => ¬ e.Accesses x)
            (fun S hS t ht => blocks_not_accesses blocks h hn S hS t ht)
            (not_accesses_leave he) e hmem
theorem blocks_not_accesses {x : String} :
    ∀ blocks : List Block, blocksTouch x blocks = false → blocksEdgesRead x blocks = false →
      ∀ S ∈ blockTraces blocks, ∀ t, S t → ∀ e ∈ t, ¬ e.Accesses x
  | [], _, _, S, hS => by simp [blockTraces] at hS
  | b :: bs, h, he, S, hS => by
      simp only [blocksTouch, blocksEdgesRead, Bool.or_eq_false_iff] at h he
      rcases mem_cons.mp hS with rfl | hS
      · exact Block.not_accesses b h.1 he.1
      · exact blocks_not_accesses bs h.2 he.2 S hS
end

/-- A segment of a program that does not touch the scalar outside its loops. -/
def Segment.Untouched (x : String) (loops : List OuterLoop) : Segment → Prop
  | .outside t => ∀ e ∈ t, ¬ e.Accesses x
  | .iteration label body t => (∃ header, ⟨label, header, body⟩ ∈ loops) ∧ body.Traces t ∧
      body.edgesRead x = false

theorem Segment.Untouched.mono {l l' : List OuterLoop} (h : l ⊆ l') {s : Segment}
    (hs : s.Untouched x l) : s.Untouched x l' := by
  cases s with
  | outside t => exact hs
  | iteration label body t =>
      obtain ⟨⟨header, hmem⟩, hrest⟩ := hs
      exact ⟨⟨header, h hmem⟩, hrest⟩

mutual
theorem Block.segments {x : String} :
    ∀ b : Block, b.outsideStates x = false → b.outsideEdges x = false →
      ∀ s, b.Executes s → ∀ seg ∈ s, seg.Untouched x b.loops
  | .state nodes, h, _, s, hs => by
      obtain ⟨vals, rfl⟩ := hs
      intro seg hseg
      rw [mem_singleton.mp hseg]
      exact not_accesses_state h vals
  | .conditional branches, h, he, s, hs => branches_segments branches h he s hs
  | .loop label header body, _, he, s, hs => by
      obtain ⟨iters, hiters, rfl⟩ := hs
      intro seg hseg
      rcases mem_cons.mp hseg with rfl | hseg
      · exact not_accesses_tests
      · obtain ⟨i, hi, hseg⟩ := mem_flatMap.mp hseg
        simp only [mem_cons, not_mem_nil, or_false] at hseg
        rcases hseg with rfl | rfl
        · exact ⟨⟨header, mem_singleton_self _⟩, hiters i hi, he⟩
        · exact not_accesses_tests
theorem branches_segments {x : String} :
    ∀ branches : List Branch, branchesOutsideStates x branches = false →
      branchesOutsideEdges x branches = false →
      ∀ s, branchExecutes branches s → ∀ seg ∈ s, seg.Untouched x (branchesLoops branches)
  | [], _, _, s, hs => by
      obtain rfl : s = [] := hs
      simp
  | .mk cond body :: rest, h, he, s, hs => by
      simp only [branchesOutsideStates, branchesOutsideEdges, Bool.or_eq_false_iff] at h he
      rcases hs with ⟨u, hu, rfl⟩ | ⟨-, u, hu, rfl⟩ <;> intro seg hseg <;>
        rcases mem_cons.mp hseg with rfl | hseg
      · exact not_accesses_tests
      · exact (Region.segments body h.1 he.1 u hu seg hseg).mono (subset_append_left _ _)
      · exact not_accesses_tests
      · exact (branches_segments rest h.2 he.2 u hu seg hseg).mono (subset_append_right _ _)
/-- **The segments of an execution**: outside its loops the program leaves the
scalar alone. -/
theorem Region.segments {x : String} :
    ∀ r : Region, r.outsideStates x = false → r.outsideEdges x = false →
      ∀ s, r.Executes s → ∀ seg ∈ s, seg.Untouched x r.loops
  | .mk blocks edges start, h, he, s, hs => by
      simp only [Region.outsideEdges, Bool.or_eq_false_iff] at he
      rcases hs with ⟨-, rfl⟩ | hs
      · simp
      · refine hs.forall_mem (Q := fun seg => seg.Untouched x (blocksLoops blocks))
          (fun S hS t ht => blocks_segments blocks h he.2 S hS t ht) ?_
        intro b seg hseg
        rw [mem_singleton.mp hseg]
        exact not_accesses_leave he.1 b
theorem blocks_segments {x : String} :
    ∀ blocks : List Block, blocksOutsideStates x blocks = false →
      blocksOutsideEdges x blocks = false →
      ∀ S ∈ blockExecutes blocks, ∀ s, S s → ∀ seg ∈ s, seg.Untouched x (blocksLoops blocks)
  | [], _, _, S, hS => by simp [blockExecutes] at hS
  | b :: bs, h, he, S, hS => by
      simp only [blocksOutsideStates, blocksOutsideEdges, Bool.or_eq_false_iff] at h he
      rcases mem_cons.mp hS with rfl | hS
      · exact fun s hs seg hseg =>
          (Block.segments b h.1 he.1 s hs seg hseg).mono (subset_append_left _ _)
      · exact fun s hs seg hseg =>
          (blocks_segments bs h.2 he.2 S hS s hs seg hseg).mono (subset_append_right _ _)
end

end Fission
