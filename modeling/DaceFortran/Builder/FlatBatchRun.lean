/-
# Running an emitted chain

The tasklets of a state may run in any order its dataflow allows.  A state is
confluent (`SDFGState.Confluent`) when any two of its tasklets are joined by an
access node or commute; then every schedule ends where the emission order does
(`SDFGState.runs_iff`), and a chain of such states is deterministic.  Adding a
tasklet keeps a state confluent if the hazard tests let it in
(`SDFGState.Accepts`).
-/
import DaceFortran.Builder.FlatBatch
import DaceFortran.Lib.Reorder

/-! ## Assignments that commute -/

variable {I : Interp} {g : SDFGState} {ns : List AccessNode} {k : ℕ}

variable {τ : Store} {c : Assign}

/-- Two assignments commute when neither names the other's target and they write
different elements. -/
theorem Assign.exec_comm {s : Store} {d : Assign}
    (hcv : c.target ∉ d.value.idents) (hcs : c.target ∉ Expr.identsList d.subs)
    (hdv : d.target ∉ c.value.idents) (hds : d.target ∉ Expr.identsList c.subs)
    (hne : c.target ≠ d.target ∨ Expr.evalList I s c.subs ≠ Expr.evalList I s d.subs) :
    d.exec I (c.exec I s) = c.exec I (d.exec I s) := by
  unfold Assign.exec
  rw [Expr.eval_write I s d.value _ _ hcv, Expr.evalList_write I s d.subs _ _ hcs,
    Expr.eval_write I s c.value _ _ hdv, Expr.evalList_write I s c.subs _ _ hds]
  exact s.write_comm _ _ hne

/-! ## Deterministic execution -/

/-- The tasklets of a state in the order they were emitted. -/
def SDFGState.exec (I : Interp) (g : SDFGState) (σ : Store) : Store := runTasklets I g.tasklets σ

/-- One element of the chain, tasklets in emission order. -/
def ChainStep.exec (I : Interp) (σ : Store) : ChainStep → Store
  | .state g => g.exec I σ
  | .edge assignments => applyEdge I assignments σ

/-- A chain, tasklets in emission order. -/
def execChain (I : Interp) (chain : List ChainStep) (σ : Store) : Store :=
  chain.foldl (ChainStep.exec I) σ

theorem execChain_append (I : Interp) (c d : List ChainStep) (σ : Store) :
    execChain I (c ++ d) σ = execChain I d (execChain I c σ) :=
  List.foldl_append

theorem chainRuns_append {c d : List ChainStep} {σ υ : Store} :
    ChainRuns I (c ++ d) σ υ ↔ ∃ τ, ChainRuns I c σ τ ∧ ChainRuns I d τ υ := by
  induction c generalizing σ with
  | nil =>
      constructor
      · exact fun h => ⟨σ, ChainRuns.nil, h⟩
      · rintro ⟨τ, h, hd⟩
        cases h
        exact hd
  | cons st c ih =>
      constructor
      · intro h
        cases h with
        | cons hst hrest =>
            obtain ⟨τ, hc, hd⟩ := ih.mp hrest
            exact ⟨τ, ChainRuns.cons hst hc, hd⟩
      · rintro ⟨τ, h, hd⟩
        cases h with
        | cons hst hc => exact ChainRuns.cons hst (ih.mpr ⟨τ, hc, hd⟩)

theorem chainRuns_singleton {st : ChainStep} {σ : Store} :
    ChainRuns I [st] σ τ ↔ st.Runs I σ τ := by
  constructor
  · intro h
    cases h with
    | cons hst hrest =>
        cases hrest
        exact hst
  · exact fun h => ChainRuns.cons h ChainRuns.nil

theorem runs_edge_iff {assignments : List (Name × Expr)} {σ : Store} :
    (ChainStep.edge assignments).Runs I σ τ ↔ τ = applyEdge I assignments σ := by
  constructor
  · intro h
    cases h
    rfl
  · rintro rfl
    exact ChainStep.Runs.edge

/-- Whether the emission order is one of the orders the step may run in. -/
def ChainStep.InOrder : ChainStep → Prop
  | .state g => g.tasklets.Pairwise (fun t u => ¬ g.Flows u t)
  | .edge _ => True

instance (st : ChainStep) : Decidable st.InOrder := by
  cases st <;> unfold ChainStep.InOrder <;> infer_instance

/-- A chain may run in emission order. -/
theorem chainRuns_execChain {chain : List ChainStep} {σ : Store}
    (h : ∀ st ∈ chain, st.InOrder) : ChainRuns I chain σ (execChain I chain σ) := by
  induction chain generalizing σ with
  | nil => exact ChainRuns.nil
  | cons st chain ih =>
      have hst : st.Runs I σ (st.exec I σ) := by
        cases st with
        | state g => exact ChainStep.Runs.state ⟨List.Perm.refl _, h _ List.mem_cons_self⟩
        | edge assignments => exact ChainStep.Runs.edge
      exact ChainRuns.cons hst (ih (fun st' hst' => h st' (List.mem_cons_of_mem st hst')))

/-! ## Confluent states -/

variable {b : SDFGBuilder} {I : Interp}

/-- Arrays and scalars are data; a symbol is not. -/
def SDFGBuilder.IsData (b : SDFGBuilder) (x : Name) : Prop := x ∈ b.arrays ∨ x ∈ b.scalars

/-- The stores that differ from `τ` in data only. -/
def SameSymbols (b : SDFGBuilder) (τ s : Store) : Prop := ∀ x, ¬ b.IsData x → s x = τ x

/-- What a tasklet's rendered statement may name: data it writes, data it reads
through connectors, and symbols. -/
structure Assign.Rendered (b : SDFGBuilder) (c : Assign) : Prop where
  target : b.IsData c.target
  subs : ∀ x ∈ Expr.identsList c.subs, ¬ b.IsData x
  value : ∀ x ∈ c.value.idents, b.IsData x → x ∈ c.connectors b

/-- The elements a tasklet addresses depend on symbols only. -/
theorem Assign.Rendered.evalList_subs (hc : c.Rendered b) {s : Store}
    (h : SameSymbols b τ s) : Expr.evalList I s c.subs = Expr.evalList I τ c.subs :=
  Expr.evalList_congr I c.subs (fun x hx => h x (hc.subs x hx))

theorem Assign.Rendered.sameSymbols (hc : c.Rendered b) {s : Store}
    (h : SameSymbols b τ s) : SameSymbols b τ (c.exec I s) := by
  intro x hx
  rw [← h x hx]
  exact s.write_of_name_ne _ _ (fun hxt => hx (hxt ▸ hc.target))

/-- A state whose schedules all end in the same store. -/
structure SDFGState.Confluent (b : SDFGBuilder) (I : Interp) (τ : Store) (g : SDFGState) :
    Prop where
  rendered : ∀ t ∈ g.tasklets, t.code.Rendered b
  indep : g.tasklets.Pairwise (fun t u => g.Flows t u ∨
    Reorder.CommuteOn (fun σ (t : Tasklet) => t.code.exec I σ) (SameSymbols b τ) t u)
  ordered : g.tasklets.Pairwise (fun t u => ¬ g.Flows u t)

theorem SDFGState.confluent_empty (τ : Store) : ({} : SDFGState).Confluent b I τ :=
  ⟨by simp, List.Pairwise.nil, List.Pairwise.nil⟩

/-- **Every schedule of a confluent state ends where the emission order does.** -/
theorem SDFGState.runs_iff {τ' : Store} (hg : g.Confluent b I τ) :
    (ChainStep.state g).Runs I τ τ' ↔ τ' = g.exec I τ := by
  constructor
  · intro h
    cases h with
    | @state _ order _ hs =>
        have hkeeps : Reorder.Keeps (fun σ (t : Tasklet) => t.code.exec I σ) (SameSymbols b τ)
            g.tasklets := fun t ht s hP => (hg.rendered t ht).sameSymbols hP
        exact Reorder.foldl_perm_of_pairwise hkeeps hg.indep hs.perm hs.dataflow (fun _ _ => rfl)
  · rintro rfl
    exact ChainStep.Runs.state ⟨List.Perm.refl _, hg.ordered⟩

/-! ## The access nodes of a state -/

/-- Every node of `ns` is there in `ns'`, possibly with more edges. -/
def Grows (ns ns' : List AccessNode) : Prop :=
  ∀ n ∈ ns, ∃ n' ∈ ns', n'.data = n.data ∧ n.writers ⊆ n'.writers ∧ n.readers ⊆ n'.readers

theorem Grows.refl (ns : List AccessNode) : Grows ns ns :=
  fun n hn => ⟨n, hn, rfl, List.Subset.refl _, List.Subset.refl _⟩

theorem Grows.trans {ns ns' ns'' : List AccessNode} (h : Grows ns ns') (h' : Grows ns' ns'') :
    Grows ns ns'' := by
  intro n hn
  obtain ⟨n', hn', hd, hw, hr⟩ := h n hn
  obtain ⟨n'', hn'', hd', hw', hr'⟩ := h' n' hn'
  exact ⟨n'', hn'', hd'.trans hd, List.Subset.trans hw hw', List.Subset.trans hr hr'⟩

/-- Access nodes with writers numbered below `w` and readers below `r`, every
writer of a node numbered below its readers. -/
structure Wired (w r : ℕ) (ns : List AccessNode) : Prop where
  writers_lt : ∀ n ∈ ns, ∀ i ∈ n.writers, i < w
  readers_lt : ∀ n ∈ ns, ∀ i ∈ n.readers, i < r
  ordered : ∀ n ∈ ns, ∀ i ∈ n.writers, ∀ j ∈ n.readers, i < j
  used : ∀ n ∈ ns, n.writers ≠ [] ∨ n.readers ≠ []

/-- The live sink of a name changed, or a node of its own where there is none. -/
def changeSink (nm : Name) (f : AccessNode → AccessNode) (m : AccessNode) :
    List AccessNode → List AccessNode
  | [] => [m]
  | n :: ns => if n.data = nm then f n :: ns else n :: changeSink nm f m ns

theorem addReader_eq (nm : Name) (i : ℕ) (ns : List AccessNode) :
    addReader nm i ns
      = changeSink nm (fun n => { n with readers := i :: n.readers }) ⟨nm, [], [i]⟩ ns := by
  induction ns with
  | nil => rfl
  | cons n ns ih => rw [addReader, changeSink, ih]

theorem addWriter_eq (nm : Name) (i : ℕ) (ns : List AccessNode) :
    addWriter nm i ns
      = changeSink nm (fun n => { n with writers := i :: n.writers }) ⟨nm, [i], []⟩ ns := by
  induction ns with
  | nil => rfl
  | cons n ns ih => rw [addWriter, changeSink, ih]

variable {f : AccessNode → AccessNode} {n' : AccessNode} {nm : Name} {a : Assign} {s : Name}
  {x : Expr}

theorem changeSink_cases {m : AccessNode}
    (h : n' ∈ changeSink nm f m ns) :
    n' ∈ ns ∨ (∃ n ∈ ns, liveSink ns nm = some n ∧ n' = f n) ∨ n' = m := by
  induction ns with
  | nil => exact Or.inr (Or.inr (by simpa [changeSink] using h))
  | cons n ns ih =>
      unfold changeSink at h
      split_ifs at h with hn
      · rcases List.mem_cons.mp h with rfl | h
        · exact Or.inr (Or.inl ⟨n, List.mem_cons_self, by simp [liveSink, hn], rfl⟩)
        · exact Or.inl (List.mem_cons_of_mem n h)
      · rcases List.mem_cons.mp h with rfl | h
        · exact Or.inl List.mem_cons_self
        · rcases ih h with h | ⟨k, hk, hl, rfl⟩ | h
          · exact Or.inl (List.mem_cons_of_mem n h)
          · refine Or.inr (Or.inl ⟨k, List.mem_cons_of_mem n hk, ?_, rfl⟩)
            simpa [liveSink, List.find?_cons, hn] using hl
          · exact Or.inr (Or.inr h)

theorem grows_changeSink (nm : Name) (m : AccessNode)
    (ns : List AccessNode) (hf : ∀ n : AccessNode,
      (f n).data = n.data ∧ n.writers ⊆ (f n).writers ∧ n.readers ⊆ (f n).readers) :
    Grows ns (changeSink nm f m ns) := by
  induction ns with
  | nil => intro n hn; simp at hn
  | cons m' ns ih =>
      intro n hn
      unfold changeSink
      split_ifs with hm
      · rcases List.mem_cons.mp hn with rfl | hn
        · exact ⟨_, List.mem_cons_self, hf n⟩
        · exact ⟨n, List.mem_cons_of_mem _ hn, rfl, List.Subset.refl _, List.Subset.refl _⟩
      · rcases List.mem_cons.mp hn with rfl | hn
        · exact ⟨n, List.mem_cons_self, rfl, List.Subset.refl _, List.Subset.refl _⟩
        · obtain ⟨n', hn', h⟩ := ih n hn
          exact ⟨n', List.mem_cons_of_mem m' hn', h⟩

section ChangeSink
variable {f : AccessNode → AccessNode} {m : AccessNode} {nm : Name}

theorem liveSink_changeSink (hf : ∀ n, (f n).data = n.data) (hm : m.data = nm)
    (ns : List AccessNode) :
    liveSink (changeSink nm f m ns) nm = some ((liveSink ns nm).elim m f) := by
  induction ns with
  | nil => simp [liveSink, changeSink, hm]
  | cons n ns ih =>
      by_cases hn : n.data = nm
      · simp [changeSink, liveSink, hn, hf]
      · simpa [changeSink, liveSink, hn] using ih

theorem liveSink_changeSink_of_ne (hf : ∀ n, (f n).data = n.data) (hm : m.data = nm) {x : Name}
    (ns : List AccessNode) (h : x ≠ nm) :
    liveSink (changeSink nm f m ns) x = liveSink ns x := by
  induction ns with
  | nil => simp [changeSink, liveSink, hm, Ne.symm h]
  | cons n ns ih =>
      unfold changeSink
      split_ifs with hn
      · simp [liveSink, hf, hn, Ne.symm h]
      · unfold liveSink at *
        rw [List.find?_cons, List.find?_cons, ih]

end ChangeSink

theorem addReader_cases {i : ℕ}
    (h : n' ∈ addReader nm i ns) :
    n' ∈ ns ∨ (∃ n ∈ ns, liveSink ns nm = some n ∧ n' = { n with readers := i :: n.readers }) ∨
      n' = ⟨nm, [], [i]⟩ :=
  changeSink_cases (addReader_eq nm i ns ▸ h)

theorem addWriter_cases {i : ℕ}
    (h : n' ∈ addWriter nm i ns) :
    n' ∈ ns ∨ (∃ n ∈ ns, liveSink ns nm = some n ∧ n' = { n with writers := i :: n.writers }) ∨
      n' = ⟨nm, [i], []⟩ :=
  changeSink_cases (addWriter_eq nm i ns ▸ h)

theorem grows_addReader (nm : Name) (i : ℕ) (ns : List AccessNode) :
    Grows ns (addReader nm i ns) := by
  rw [addReader_eq]
  exact grows_changeSink nm _ ns fun n => ⟨rfl, List.Subset.refl _, List.subset_cons_self i _⟩

theorem grows_addWriter (nm : Name) (i : ℕ) (ns : List AccessNode) :
    Grows ns (addWriter nm i ns) := by
  rw [addWriter_eq]
  exact grows_changeSink nm _ ns fun n => ⟨rfl, List.subset_cons_self i _, List.Subset.refl _⟩

/-- The live sink a read goes to gains the reader. -/
theorem liveSink_addReader (nm : Name) (i : ℕ) (ns : List AccessNode) :
    ∃ n, liveSink (addReader nm i ns) nm = some n ∧ i ∈ n.readers ∧
      ∀ n₀, liveSink ns nm = some n₀ → n₀.writers ⊆ n.writers := by
  have h : liveSink (addReader nm i ns) nm = some ((liveSink ns nm).elim ⟨nm, [], [i]⟩
      fun n => { n with readers := i :: n.readers }) := by
    rw [addReader_eq]
    exact liveSink_changeSink (by intro n; rfl) (by rfl) ns
  refine ⟨_, h, ?_, ?_⟩
  · cases liveSink ns nm with
    | none => exact List.mem_singleton_self i
    | some n => exact List.mem_cons_self
  · rintro n₀ h₀
    rw [h₀]
    exact List.Subset.refl _

theorem liveSink_addReader_of_ne {nm x : Name} (i : ℕ) (ns : List AccessNode) (h : x ≠ nm) :
    liveSink (addReader nm i ns) x = liveSink ns x := by
  rw [addReader_eq]
  exact liveSink_changeSink_of_ne (by intro n; rfl) (by rfl) ns h

theorem liveSink_addWriter (nm : Name) (i : ℕ) (ns : List AccessNode) :
    ∃ n, liveSink (addWriter nm i ns) nm = some n ∧ i ∈ n.writers := by
  have h : liveSink (addWriter nm i ns) nm = some ((liveSink ns nm).elim ⟨nm, [i], []⟩
      fun n => { n with writers := i :: n.writers }) := by
    rw [addWriter_eq]
    exact liveSink_changeSink (by intro n; rfl) (by rfl) ns
  refine ⟨_, h, ?_⟩
  cases liveSink ns nm with
  | none => exact List.mem_singleton_self i
  | some n => exact List.mem_cons_self

theorem liveSink_addWriter_of_ne {nm x : Name} (i : ℕ) (ns : List AccessNode) (h : x ≠ nm) :
    liveSink (addWriter nm i ns) x = liveSink ns x := by
  rw [addWriter_eq]
  exact liveSink_changeSink_of_ne (by intro n; rfl) (by rfl) ns h

/-- The nodes after all reads of a tasklet. -/
def addReaders (names : List Name) (i : ℕ) (ns : List AccessNode) : List AccessNode :=
  names.foldl (fun ns nm => addReader nm i ns) ns

variable (names : List Name)

theorem grows_addReaders (i : ℕ) (ns : List AccessNode) :
    Grows ns (addReaders names i ns) := by
  induction names generalizing ns with
  | nil => exact Grows.refl ns
  | cons nm names ih => exact (grows_addReader nm i ns).trans (ih _)

/-- The nodes a tasklet reads from are there, with all their writers. -/
theorem liveSink_addReaders (i : ℕ) (ns : List AccessNode) {x : Name}
    {n₀ : AccessNode} (h : liveSink ns x = some n₀) :
    ∃ n, liveSink (addReaders names i ns) x = some n ∧ n₀.writers ⊆ n.writers ∧
      (i ∈ n₀.readers ∨ x ∈ names → i ∈ n.readers) := by
  induction names generalizing ns n₀ with
  | nil => exact ⟨n₀, h, List.Subset.refl _, by simp⟩
  | cons nm names ih =>
      by_cases hx : x = nm
      · subst hx
        obtain ⟨n₁, h₁, hi, hw⟩ := liveSink_addReader x i ns
        obtain ⟨n, hn, hw', hi'⟩ := ih _ h₁
        exact ⟨n, hn, List.Subset.trans (hw n₀ h) hw', fun _ => hi' (Or.inl hi)⟩
      · obtain ⟨n, hn, hw, hi⟩ :=
          ih (addReader nm i ns) ((liveSink_addReader_of_ne i ns hx).trans h)
        refine ⟨n, hn, hw, ?_⟩
        rintro (h' | h')
        · exact hi (Or.inl h')
        · exact hi (Or.inr ((List.mem_cons.mp h').resolve_left hx))

/-- The nodes one by one. -/
theorem Wired.of_forall {w r : ℕ}
    (h : ∀ n ∈ ns, (∀ i ∈ n.writers, i < w) ∧ (∀ i ∈ n.readers, i < r) ∧
    (∀ i ∈ n.writers, ∀ j ∈ n.readers, i < j) ∧ (n.writers ≠ [] ∨ n.readers ≠ [])) : Wired w r ns :=
  ⟨fun n hn => (h n hn).1, fun n hn => (h n hn).2.1, fun n hn => (h n hn).2.2.1,
    fun n hn => (h n hn).2.2.2⟩

theorem Wired.addReader (h : Wired k (k + 1) ns) (nm : Name) :
    Wired k (k + 1) (addReader nm k ns) := by
  refine .of_forall fun n' hn' => ?_
  rcases addReader_cases hn' with hn | ⟨n, hn, -, rfl⟩ | rfl
  · exact ⟨h.writers_lt n' hn, h.readers_lt n' hn, h.ordered n' hn, h.used n' hn⟩
  · refine ⟨h.writers_lt n hn, List.forall_mem_cons.2 ⟨by omega, h.readers_lt n hn⟩, fun i hi => ?_,
      Or.inr (by simp)⟩
    exact List.forall_mem_cons.2 ⟨h.writers_lt n hn i hi, h.ordered n hn i hi⟩
  · simp

theorem Wired.addReaders (h : Wired k (k + 1) ns)
    (names : List Name) : Wired k (k + 1) (addReaders names k ns) := by
  induction names generalizing ns with
  | nil => exact h
  | cons nm names ih => exact ih (h.addReader nm)

/-- A write may join a node nothing has read yet. -/
theorem Wired.addWriter (h : Wired k (k + 1) ns)
    (hnm : ∀ n, liveSink ns nm = some n → n.readers = []) :
    Wired (k + 1) (k + 1) (addWriter nm k ns) := by
  refine .of_forall fun n' hn' => ?_
  rcases addWriter_cases hn' with hn | ⟨n, hn, hsink, rfl⟩ | rfl
  · exact ⟨fun i hi => (h.writers_lt n' hn i hi).trans (by omega), h.readers_lt n' hn,
      h.ordered n' hn, h.used n' hn⟩
  · refine ⟨List.forall_mem_cons.2
      ⟨by omega, fun i hi => (h.writers_lt n hn i hi).trans (by omega)⟩,
      h.readers_lt n hn, ?_, Or.inl (by simp)⟩
    simp [hnm n hsink]
  · simp

/-- A write may always open a node of its own. -/
theorem Wired.openWriter (h : Wired k (k + 1) ns) (nm : Name) :
    Wired (k + 1) (k + 1) (⟨nm, [k], []⟩ :: ns) := by
  refine ⟨?_, ?_, ?_, ?_⟩ <;> intro n hn <;> rcases List.mem_cons.mp hn with rfl | hn
  · intro i hi
    rw [List.mem_singleton.mp hi]
    omega
  · exact fun i hi => (h.writers_lt n hn i hi).trans (by omega)
  · simp
  · exact h.readers_lt n hn
  · simp
  · exact h.ordered n hn
  · exact Or.inl (by simp)
  · exact h.used n hn

/-- What `emit_tasklet` does to the access nodes of a state. -/
structure EmitsNodes (b : SDFGBuilder) (ns ns' : List AccessNode) (a : Assign) (k : ℕ) : Prop where
  grows : Grows ns ns'
  wired : Wired (k + 1) (k + 1) ns'
  sink : ∀ x, x ≠ a.target → ∀ n₀, liveSink ns x = some n₀ →
    ∃ n, liveSink ns' x = some n ∧ n₀.writers ⊆ n.writers
  target : ∃ n, liveSink ns' a.target = some n ∧ k ∈ n.writers
  reads : ∀ x ∈ a.connectors b, ∀ n₀, liveSink ns x = some n₀ →
    ∃ n ∈ ns', n₀.writers ⊆ n.writers ∧ k ∈ n.readers
  data : ∀ x, (∃ n ∈ ns', n.data = x) ↔ (∃ n ∈ ns, n.data = x) ∨ x = a.target ∨ x ∈ a.connectors b

/-- The names that have a node after the reads of a tasklet. -/
theorem data_addReaders (i : ℕ) (ns : List AccessNode) (x : Name) :
    (∃ n ∈ addReaders names i ns, n.data = x) ↔ (∃ n ∈ ns, n.data = x) ∨ x ∈ names := by
  induction names generalizing ns with
  | nil => simp [addReaders]
  | cons nm names ih =>
      have hstep : (∃ n ∈ addReader nm i ns, n.data = x) ↔ (∃ n ∈ ns, n.data = x) ∨ x = nm := by
        constructor
        · rintro ⟨n', hn', rfl⟩
          rcases addReader_cases hn' with hn | ⟨n, -, hl, rfl⟩ | rfl
          · exact Or.inl ⟨n', hn, rfl⟩
          · exact Or.inr (by simpa using List.find?_some hl)
          · exact Or.inr rfl
        · rintro (⟨n, hn, rfl⟩ | rfl)
          · obtain ⟨n', hn', hd, -⟩ := grows_addReader nm i ns n hn
            exact ⟨n', hn', hd⟩
          · obtain ⟨n, hn, -⟩ := liveSink_addReader x i ns
            exact ⟨n, List.mem_of_find?_eq_some hn, by simpa using List.find?_some hn⟩
      have hrest := ih (addReader nm i ns)
      rw [hstep, or_assoc, ← List.mem_cons] at hrest
      exact hrest

/-- **The access nodes after `emit_tasklet`.** -/
theorem emitNodes_spec (h : Wired k k ns) (a : Assign) :
    EmitsNodes b ns (emitNodes b ns a k) a k := by
  have h₁ : Wired k (k + 1) ns :=
    ⟨h.writers_lt, fun n hn i hi => (h.readers_lt n hn i hi).trans (by omega), h.ordered, h.used⟩
  have hread : Wired k (k + 1) (addReaders (a.connectors b) k ns) := h₁.addReaders _
  have hgrow := grows_addReaders (a.connectors b) k ns
  have hdata := data_addReaders (a.connectors b) k ns
  have hnode : emitNodes b ns a k =
      if a.target ∈ a.connectors b ∨
          (liveSink (addReaders (a.connectors b) k ns) a.target).any (fun n => n.readers ≠ []) then
        ⟨a.target, [k], []⟩ :: addReaders (a.connectors b) k ns
      else addWriter a.target k (addReaders (a.connectors b) k ns) := rfl
  rw [hnode]
  -- the target gets a node of its own where this tasklet or one before reads it
  split_ifs with hfresh
  · refine ⟨?_, hread.openWriter a.target, ?_, ?_, ?_, ?_⟩
    · intro n hn
      obtain ⟨n', hn', hrest⟩ := hgrow n hn
      exact ⟨n', List.mem_cons_of_mem _ hn', hrest⟩
    · intro x hx n₀ h₀
      obtain ⟨n, hn, hw, -⟩ := liveSink_addReaders (a.connectors b) k ns h₀
      refine ⟨n, ?_, hw⟩
      simpa [liveSink, Ne.symm hx] using hn
    · exact ⟨⟨a.target, [k], []⟩, by simp [liveSink], by simp⟩
    · intro x hx n₀ h₀
      obtain ⟨n, hn, hw, hi⟩ := liveSink_addReaders (a.connectors b) k ns h₀
      exact ⟨n, List.mem_cons_of_mem _ (List.mem_of_find?_eq_some hn), hw, hi (Or.inr hx)⟩
    · intro x
      have hx := hdata x
      simp only [List.mem_cons, exists_eq_or_imp]
      rw [hx, eq_comm (a := x) (b := a.target)]
      constructor
      · rintro (h | h | h)
        · exact Or.inr (Or.inl h)
        · exact Or.inl h
        · exact Or.inr (Or.inr h)
      · rintro (h | h | h)
        · exact Or.inr (Or.inl h)
        · exact Or.inl h
        · exact Or.inr (Or.inr h)
  · have hclear : ∀ n, liveSink (addReaders (a.connectors b) k ns) a.target = some n →
        n.readers = [] := by
      intro n hn
      by_contra hne
      exact hfresh (Or.inr (by simp [hn, hne]))
    have hgrow' := grows_addWriter a.target k (addReaders (a.connectors b) k ns)
    refine ⟨hgrow.trans hgrow', hread.addWriter hclear, ?_, liveSink_addWriter _ _ _, ?_, ?_⟩
    · intro x hx n₀ h₀
      obtain ⟨n, hn, hw, -⟩ := liveSink_addReaders (a.connectors b) k ns h₀
      exact ⟨n, (liveSink_addWriter_of_ne k _ hx).trans hn, hw⟩
    · intro x hx n₀ h₀
      obtain ⟨n, hn, hw, hi⟩ := liveSink_addReaders (a.connectors b) k ns h₀
      obtain ⟨n', hn', -, hw', hr'⟩ := hgrow' n (List.mem_of_find?_eq_some hn)
      exact ⟨n', hn', List.Subset.trans hw hw', hr' (hi (Or.inr hx))⟩
    · intro x
      have hx := hdata x
      constructor
      · rintro ⟨n', hn', rfl⟩
        rcases addWriter_cases hn' with hn | ⟨n, hn, hsink, rfl⟩ | rfl
        · rcases (hdata n'.data).mp ⟨n', hn, rfl⟩ with h | h
          · exact Or.inl h
          · exact Or.inr (Or.inr h)
        · exact Or.inr (Or.inl (by simpa using List.find?_some hsink))
        · exact Or.inr (Or.inl rfl)
      · rintro (h | rfl | h)
        · obtain ⟨n, hn, rfl⟩ := hx.mpr (Or.inl h)
          obtain ⟨n', hn', hd, -⟩ := hgrow' n hn
          exact ⟨n', hn', hd⟩
        · obtain ⟨n, hn, -⟩ := liveSink_addWriter a.target k (addReaders (a.connectors b) k ns)
          exact ⟨n, List.mem_of_find?_eq_some hn, by simpa using List.find?_some hn⟩
        · obtain ⟨n, hn, rfl⟩ := hx.mpr (Or.inr h)
          obtain ⟨n', hn', hd, -⟩ := hgrow' n hn
          exact ⟨n', hn', hd⟩

/-! ## Adding a tasklet -/

mutual
theorem Expr.tokens_withMemlets (m : IndirectSyms) : ∀ e : Expr, (e.withMemlets m).tokens = e.tokens
  | .lit _ => rfl
  | .var _ => rfl
  | .load _ _ => rfl
  | .add a b => by
      simp [Expr.withMemlets, Expr.tokens, Expr.tokens_withMemlets m a, Expr.tokens_withMemlets m b]
  | .app f args => by
      simp [Expr.withMemlets, Expr.tokens, Expr.tokensList_withMemletsList m args]
theorem Expr.tokensList_withMemletsList (m : IndirectSyms) :
    ∀ es : List Expr, Expr.tokensList (Expr.withMemletsList m es) = Expr.tokensList es
  | [] => rfl
  | e :: es => by
      simp [Expr.withMemletsList, Expr.tokensList, Expr.tokens_withMemlets m e,
        Expr.tokensList_withMemletsList m es]
end

@[simp] theorem Assign.render_target (m : IndirectSyms) (a : Assign) :
    (a.render m).target = a.target := rfl

/-- Rendering the subscripts leaves the connectors. -/
@[simp] theorem Assign.connectors_render (m : IndirectSyms) (a : Assign) :
    (a.render m).connectors b = a.connectors b := by
  simp [Assign.connectors, Assign.render, Expr.tokens_withMemlets]

/-- The tasklets of a state are numbered in emission order, below `k`, and its
access nodes are theirs. -/
structure SDFGState.Numbered (b : SDFGBuilder) (k : ℕ) (g : SDFGState) : Prop where
  wired : Wired k k g.nodes
  idx_lt : ∀ t ∈ g.tasklets, t.idx < k
  sorted : g.tasklets.Pairwise (fun t u => t.idx < u.idx)
  sink : ∀ t ∈ g.tasklets, t.code.target ∈ b.scalars →
    ∃ n, liveSink g.nodes t.code.target = some n ∧ t.idx ∈ n.writers
  data : ∀ x, (∃ n ∈ g.nodes, n.data = x) ↔
    ∃ t ∈ g.tasklets, x = t.code.target ∨ x ∈ t.code.connectors b

theorem SDFGState.numbered_empty (k : ℕ) : ({} : SDFGState).Numbered b k :=
  ⟨⟨by simp, by simp, by simp, by simp⟩, by simp, List.Pairwise.nil, by simp, by simp⟩

/-- The emission order respects the dataflow. -/
theorem SDFGState.Numbered.ordered (h : g.Numbered b k) :
    g.tasklets.Pairwise (fun t u => ¬ g.Flows u t) := by
  refine h.sorted.imp ?_
  rintro t u hlt ⟨n, hn, hu, ht⟩
  have := h.wired.ordered n hn _ hu _ ht
  omega

/-- The rewrite test sees exactly the scalars the tasklets of the state touch. -/
theorem SDFGState.Numbered.scalarReassign_iff (h : g.Numbered b k)
    (a : Assign) :
    g.scalarReassign b a = true ↔ a.target ∈ b.scalars ∧
      ∃ t ∈ g.tasklets, a.target = t.code.target ∨ a.target ∈ t.code.connectors b := by
  have hused : ∀ n ∈ g.nodes, (!n.writers.isEmpty || !n.readers.isEmpty) = true := by
    intro n hn
    simpa using h.wired.used n hn
  rw [← h.data]
  simp only [SDFGState.scalarReassign, Bool.and_eq_true, decide_eq_true_eq, List.any_eq_true]
  constructor
  · rintro ⟨hs, n, hn, hd, -⟩
    exact ⟨hs, n, hn, hd⟩
  · rintro ⟨hs, n, hn, hd⟩
    exact ⟨hs, n, hn, hd, hused n hn⟩

/-- A statement may join a state entered with `τ`: it rewrites no scalar of the
state, shares no array with its tasklets as a read and a write, and writes no
element one of them writes. -/
structure SDFGState.Accepts (b : SDFGBuilder) (I : Interp) (τ : Store) (g : SDFGState)
    (c : Assign) : Prop where
  scalar : c.target ∈ b.scalars →
    ∀ t ∈ g.tasklets, c.target ≠ t.code.target ∧ c.target ∉ t.code.connectors b
  array : ∀ t ∈ g.tasklets, (t.code.target ∈ b.arrays → t.code.target ∉ c.connectors b) ∧
    (c.target ∈ b.arrays → c.target ∉ t.code.connectors b)
  distinct : ∀ t ∈ g.tasklets, t.code.target = c.target →
    Expr.evalList I τ t.code.subs ≠ Expr.evalList I τ c.subs

theorem SDFGState.accepts_empty (τ : Store) (c : Assign) : ({} : SDFGState).Accepts b I τ c :=
  ⟨by simp, by simp, by simp⟩

variable {m : IndirectSyms}

/-- Adding a tasklet keeps the numbering. -/
theorem SDFGState.Numbered.emitTasklet (h : g.Numbered b k)
    (hscalar : a.target ∈ b.scalars → ∀ t ∈ g.tasklets, a.target ≠ t.code.target) :
    (g.emitTasklet b m a k).Numbered b (k + 1) := by
  have hspec := emitNodes_spec (b := b) h.wired a
  refine ⟨hspec.wired, ?_, ?_, ?_, ?_⟩
  · intro t ht
    rcases List.mem_append.mp ht with ht | ht
    · exact (h.idx_lt t ht).trans (by omega)
    · rw [List.mem_singleton.mp ht]
      exact Nat.lt_succ_self k
  · refine List.pairwise_append.mpr ⟨h.sorted, List.pairwise_singleton _ _, ?_⟩
    intro t ht u hu
    rw [List.mem_singleton.mp hu]
    exact h.idx_lt t ht
  · intro t ht hts
    rcases List.mem_append.mp ht with ht | ht
    · obtain ⟨n₀, h₀, hw₀⟩ := h.sink t ht hts
      have hne : t.code.target ≠ a.target := fun heq => hscalar (heq ▸ hts) t ht heq.symm
      obtain ⟨n, hn, hw⟩ := hspec.sink _ hne n₀ h₀
      exact ⟨n, hn, hw hw₀⟩
    · rw [List.mem_singleton.mp ht]
      exact hspec.target
  · intro x
    have hx := hspec.data x
    rw [h.data] at hx
    refine hx.trans ?_
    simp only [SDFGState.emitTasklet, List.mem_append, List.mem_singleton, or_and_right, exists_or,
      exists_eq_left, Assign.render_target, Assign.connectors_render]

/-- A value written and then read in one state goes through an access node. -/
theorem SDFGState.Numbered.flows (h : g.Numbered b k)
    {t : Tasklet} (ht : t ∈ g.tasklets) (hs : t.code.target ∈ b.scalars)
    (hread : t.code.target ∈ a.connectors b) :
    (g.emitTasklet b m a k).Flows t ⟨k, a.render m⟩ := by
  obtain ⟨n₀, h₀, hw₀⟩ := h.sink t ht hs
  obtain ⟨n, hn, hw, hk⟩ := (emitNodes_spec (b := b) h.wired a).reads _ hread n₀ h₀
  exact ⟨n, hn, hw hw₀, hk⟩

/-- **A state stays confluent when it accepts a statement.** -/
theorem SDFGState.Confluent.emitTasklet
    (hg : g.Confluent b I τ) (hk : g.Numbered b k) (hc : (a.render m).Rendered b)
    (hacc : g.Accepts b I τ (a.render m)) :
    (g.emitTasklet b m a k).Confluent b I τ := by
  have hspec := emitNodes_spec (b := b) hk.wired a
  have hnum := hk.emitTasklet (m := m) (a := a) (fun hs t ht => (hacc.scalar hs t ht).1)
  refine ⟨?_, ?_, hnum.ordered⟩
  · intro t ht
    rcases List.mem_append.mp ht with ht | ht
    · exact hg.rendered t ht
    · rw [List.mem_singleton.mp ht]
      exact hc
  · refine List.pairwise_append.mpr ⟨?_, List.pairwise_singleton _ _, ?_⟩
    · refine hg.indep.imp ?_
      rintro t u (⟨n, hn, ht, hu⟩ | hcomm)
      · obtain ⟨n', hn', -, hw, hr⟩ := hspec.grows n hn
        exact Or.inl ⟨n', hn', hw ht, hr hu⟩
      · exact Or.inr hcomm
    · intro t ht u hu
      rw [List.mem_singleton.mp hu]
      have htr := hg.rendered t ht
      by_cases hread : t.code.target ∈ a.connectors b
      · -- read after write: only a scalar can be read here, through its live sink
        rcases htr.target with harr | hs
        · exact absurd (by simpa using hread) ((hacc.array t ht).1 harr)
        · exact Or.inl (hk.flows ht hs hread)
      · refine Or.inr (fun s hs => ?_)
        have hnread : (a.render m).target ∉ t.code.connectors b := by
          intro hmem
          rcases hc.target with harr | hsc
          · exact (hacc.array t ht).2 harr hmem
          · exact (hacc.scalar hsc t ht).2 hmem
        refine Assign.exec_comm ?_ ?_ ?_ ?_ ?_
        · exact fun hmem => hread (by simpa using hc.value _ hmem htr.target)
        · exact fun hmem => hc.subs _ hmem htr.target
        · exact fun hmem => hnread (htr.value _ hmem hc.target)
        · exact fun hmem => htr.subs _ hmem hc.target
        · by_cases heq : t.code.target = (a.render m).target
          · refine Or.inr ?_
            rw [htr.evalList_subs hs, hc.evalList_subs hs]
            exact hacc.distinct t ht heq
          · exact Or.inl heq

/-! ## Steps of the emission -/

/-- The store in which the current state is entered. -/
def Emission.mid (I : Interp) (σ : Store) (e : Emission) : Store := execChain I e.chain σ

/-- The store behind the pending edge, tasklets in emission order. -/
def Emission.exec (I : Interp) (σ : Store) (e : Emission) : Store :=
  applyEdge I e.edge (e.cur.exec I (e.mid I σ))

/-- What has been emitted runs in one way only. -/
structure Emission.Det (b : SDFGBuilder) (I : Interp) (σ : Store) (e : Emission) : Prop where
  chain : ∀ τ, ChainRuns I e.chain σ τ ↔ τ = e.mid I σ
  cur : e.cur.Confluent b I (e.mid I σ)
  numbered : e.cur.Numbered b e.computeI

theorem Emission.det_empty (σ : Store) : ({} : Emission).Det b I σ := by
  refine ⟨fun τ => ?_, SDFGState.confluent_empty _, SDFGState.numbered_empty 0⟩
  constructor
  · intro h
    cases h
    rfl
  · rintro rfl
    exact ChainRuns.nil

variable {σ : Store} {e : Emission}

/-- Closing the current state behind an edge of given assignments. -/
theorem Emission.Det.runs_extend (h : e.Det b I σ) (edge : List (Name × Expr)) (τ : Store) :
    ChainRuns I (e.chain ++ [.state e.cur, .edge edge]) σ τ ↔
      τ = execChain I (e.chain ++ [.state e.cur, .edge edge]) σ := by
  have hlist : ([.state e.cur, .edge edge] : List ChainStep) = [.state e.cur] ++ [.edge edge] := rfl
  have hexec : execChain I (e.chain ++ [.state e.cur, .edge edge]) σ =
      applyEdge I edge (e.cur.exec I (e.mid I σ)) := by
    rw [execChain_append]
    rfl
  rw [hexec, chainRuns_append, hlist]
  simp only [h.chain, exists_eq_left, chainRuns_append, chainRuns_singleton,
    SDFGState.runs_iff h.cur, runs_edge_iff]

theorem Emission.close_exec : e.close.exec I σ = e.exec I σ := by
  simp only [Emission.exec, Emission.close, Emission.mid, execChain_append]
  rfl

theorem Emission.Det.close (h : e.Det b I σ) : e.close.Det b I σ :=
  ⟨h.runs_extend e.edge, SDFGState.confluent_empty _, SDFGState.numbered_empty _⟩

/-- The pending edge is closed when a condition on it says so. -/
theorem Emission.ite_close_exec (p : Prop) [Decidable p] :
    (if p then e.close else e).exec I σ = e.exec I σ := by
  split_ifs
  · exact Emission.close_exec
  · rfl

theorem Emission.Det.ite_close (h : e.Det b I σ) (p : Prop) [Decidable p] :
    (if p then e.close else e).Det b I σ := by
  split_ifs
  · exact h.close
  · exact h

/-- The emission after the definition of an indirect symbol. -/
theorem Emission.define_eq (hx : x ∉ e.emitted) (hs : m.lookup x = some s) :
    e.define m x =
      let e' := if e.edge = [] then e else e.close
      { e' with
        chain := e'.chain ++ [.state e'.cur, .edge [(s, indirectToDace m x)]]
        cur := {}
        emitted := x :: e'.emitted } := by
  unfold Emission.define
  rw [if_neg hx, hs]

/-- Defining a symbol assigns it the value of its right-hand side. -/
theorem Emission.define_exec (hx : x ∉ e.emitted)
    (hs : m.lookup x = some s) :
    (e.define m x).exec I σ =
      (e.exec I σ).set s ((indirectToDace m x).eval I (e.exec I σ)) := by
  rw [Emission.define_eq hx hs]
  have hedge : (if e.edge = [] then e else e.close).edge = [] := by
    split_ifs with h
    · exact h
    · rfl
  have hexec : (if e.edge = [] then e else e.close).exec I σ = e.exec I σ := by
    split_ifs
    · rfl
    · exact Emission.close_exec
  rw [← hexec]
  simp only [Emission.exec, Emission.mid, execChain_append, hedge]
  rfl

theorem Emission.Det.define (h : e.Det b I σ) (hx : x ∉ e.emitted)
    (hs : m.lookup x = some s) : (e.define m x).Det b I σ := by
  rw [Emission.define_eq hx hs]
  have h' : (if e.edge = [] then e else e.close).Det b I σ := by
    split_ifs
    · exact h
    · exact h.close
  exact ⟨h'.runs_extend _, SDFGState.confluent_empty _, SDFGState.numbered_empty _⟩

/-- Assignments of one edge that do not conflict act one after another. -/
theorem applyEdge_concat (edge : List (Name × Expr)) {tgt : Name} {rhs : Expr} (τ : Store)
    (h : ∀ x ∈ rhs.idents, x ∉ edge.map Prod.fst) :
    applyEdge I (edge ++ [(tgt, rhs)]) τ =
      (applyEdge I edge τ).set tgt (rhs.eval I (applyEdge I edge τ)) := by
  have hframe : ∀ (l : List (Name × Expr)) (υ : Store) (x : Name), x ∉ l.map Prod.fst →
      l.foldl (fun υ p => υ.set p.1 (p.2.eval I τ)) υ x = υ x := by
    intro l
    induction l with
    | nil => exact fun υ x _ => rfl
    | cons p l ih =>
        intro υ x hx
        simp only [List.map_cons, List.mem_cons, not_or] at hx
        rw [List.foldl_cons, ih _ x hx.2, Store.set_of_ne _ _ hx.1]
  have hrhs : rhs.eval I (applyEdge I edge τ) = rhs.eval I τ :=
    Expr.eval_congr I rhs (fun x hx => hframe edge τ x (h x hx))
  rw [hrhs]
  simp [applyEdge, List.foldl_append]

/-- A symbol assignment acts after everything emitted before it. -/
theorem Emission.assignSymbol_exec (tgt : Name) (rhs : Expr) :
    (e.assignSymbol tgt rhs).exec I σ = (e.exec I σ).set tgt (rhs.eval I (e.exec I σ)) := by
  have hedge : ∀ x ∈ rhs.idents,
      x ∉ (if conflictsWithEdge e.edge tgt rhs then e.close else e).edge.map Prod.fst := by
    intro x hx
    split_ifs with hc
    · simp [Emission.close]
    · intro hmem
      refine hc ?_
      simp only [conflictsWithEdge, Bool.or_eq_true, List.any_eq_true, decide_eq_true_eq]
      exact Or.inl (Or.inr ⟨x, hx, hmem⟩)
  have hexec := Emission.ite_close_exec (I := I) (σ := σ) (e := e)
    (conflictsWithEdge e.edge tgt rhs = true)
  rw [← hexec]
  exact applyEdge_concat _ _ hedge

theorem Emission.Det.assignSymbol (h : e.Det b I σ) (tgt : Name) (rhs : Expr) :
    (e.assignSymbol tgt rhs).Det b I σ := by
  have h' := h.ite_close (conflictsWithEdge e.edge tgt rhs = true)
  exact ⟨h'.chain, h'.cur, h'.numbered⟩

/-- A compute statement in a state with no edge pending acts after everything
emitted before it. -/
theorem Emission.compute_exec (opens : Bool) (a : Assign) (h : opens = true ∨ e.edge = []) :
    (e.compute b m opens a).exec I σ = (a.render m).exec I (e.exec I σ) := by
  have hedge : (if opens then e.close else e).edge = [] := by
    split_ifs with ho
    · rfl
    · exact h.resolve_left ho
  rw [← Emission.ite_close_exec (I := I) (σ := σ) (e := e) (opens = true)]
  simp only [Emission.compute, Emission.exec, hedge]
  simp [SDFGState.exec, SDFGState.emitTasklet, runTasklets, applyEdge, Emission.mid]

theorem Emission.Det.compute (h : e.Det b I σ) (opens : Bool)
    (hc : (a.render m).Rendered b)
    (hacc : opens = false → e.cur.Accepts b I (e.mid I σ) (a.render m)) :
    (e.compute b m opens a).Det b I σ := by
  have h' := h.ite_close (opens = true)
  have hacc' : (if opens = true then e.close else e).cur.Accepts b I
      ((if opens = true then e.close else e).mid I σ) (a.render m) := by
    split_ifs with ho
    · exact SDFGState.accepts_empty _ _
    · exact hacc (by simpa using ho)
  refine ⟨h'.chain, h'.cur.emitTasklet h'.numbered hc hacc', ?_⟩
  exact h'.numbered.emitTasklet (a := a) (fun hs t ht => (hacc'.scalar hs t ht).1)
