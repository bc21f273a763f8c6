/-
# Paths of a function and the runs after the pass

A path of the function before the pass takes the decisions of a run of the rewritten
function.  It keeps, for every SSA value, the loads its extent arithmetic comes from, and
for every live array those its extents come from.  The two go through the same places, and
a cell of the run belongs to the scalar the path loads from.
-/
import DaceFortran.ShapeScalars.CellOrder

open List

namespace ShapeScalars

variable {S : Type}

/-! ## Paths -/

/-- A load: its scalar and its SSA value. -/
structure ScalarLoad where
  scalar : ℕ
  dst : ℕ
  deriving DecidableEq

/-- A live array: its number and a load an extent of it comes from. -/
structure LiveLoad where
  array : ℕ
  load : ScalarLoad

/-- A place on a path: the loads each SSA value comes from, the live arrays, the number of the next
array, how many stores each scalar has seen, and the blocks left. -/
structure Path (S : Type) where
  source : ℕ → List ScalarLoad
  live : List LiveLoad
  next : ℕ
  stored : ℕ → ℕ
  todo : List (Block S)

/-- One operation; `m` decides what is freed. -/
def Path.exec (m : Data S) (p : Path S) (todo : List (Block S)) : Op S → Path S
  | .load dst c => { p with source := Function.update p.source dst [⟨c.scalar, dst⟩], todo := todo }
  | .write c _ =>
    { p with stored := Function.update p.stored c.scalar (p.stored c.scalar + 1), todo := todo }
  | .freeze dst d => { p with source := Function.update p.source dst [⟨d, dst⟩], todo := todo }
  | .extent dst operands _ =>
    { p with source := Function.update p.source dst (operands.flatMap p.source), todo := todo }
  | .allocmem extents =>
    { p with
      live := (extents.flatMap p.source).map (fun l => ⟨p.next, l⟩) ++ p.live
      next := p.next + 1
      todo := todo }
  | .freemem dead => { p with live := p.live.filter (fun e => !dead m e.array), todo := todo }
  | .other _ => { p with todo := todo }

/-- One step; `m` decides which way it goes. -/
def Path.step (m : Data S) (p : Path S) : Path S :=
  match p.todo with
  | [] => p
  | .done :: k => { p with todo := k }
  | .op o r :: k => p.exec m (r :: k) o
  | .branch c t e r :: k => { p with todo := (if c m then t else e) :: r :: k }
  | .loop c body r :: k => { p with todo := if c m then body :: .loop c body r :: k else r :: k }

/-- The path of a function with the decisions of the data `m 0, m 1, …`. -/
def pathAt (b : Block S) (m : ℕ → Data S) : ℕ → Path S
  | 0 => ⟨fun _ => [], [], 0, fun _ => 0, [b]⟩
  | n + 1 => (pathAt b m n).step (m n)

/-- While an array is live whose extents come from loads of the scalar, the path stores to the
scalar (one left alone, or the first store to one that is versioned), or, if the scalar is frozen,
comes to the very load again. -/
def Path.overwrites (dec : ℕ → Decision) (p : Path S) : Bool :=
  match p.todo with
  | .op (.write c _) _ :: _ =>
    (decide (dec c.scalar = .untouched) ||
        decide (dec c.scalar = .versioned) && decide (p.stored c.scalar = 0)) &&
      p.live.any fun e => decide (e.load.scalar = c.scalar)
  | .op (.load dst c) _ :: _ =>
    decide (dec c.scalar = .frozen) && p.live.any fun e => decide (e.load = ⟨c.scalar, dst⟩)
  | _ => false

/-! ## The same operations -/

/-- The operation with the declare's own cell in place of every other one. -/
def Op.erase : Op S → Op S
  | .load dst c => .load dst (.own c.scalar)
  | .write c v => .write (.own c.scalar) v
  | .freeze dst d => .load dst (.own d)
  | o => o

/-- A snapshot is loaded by its own load only. -/
def Op.Tidy : Op S → Prop
  | .load dst c => ∀ d x, c = .frozen d x → x = dst
  | _ => True

/-- What the pass makes of an operation; the loads of frozen scalars take snapshots. -/
structure Rewritten (dec : ℕ → Decision) (o o' : Op S) : Prop where
  erase : o'.erase = o.erase
  tidy : o.Tidy → o'.Tidy
  freeze : ∀ dst d, o' = .freeze dst d → o = .freeze dst d ∨ dec d = .frozen

variable {dec : ℕ → Decision} {d : ℕ}

theorem Rewritten.refl (o : Op S) : Rewritten dec o o := ⟨rfl, id, fun _ _ => .inl⟩

theorem Rewritten.trans {o o' o'' : Op S} (h : Rewritten dec o o') (h' : Rewritten dec o' o'') :
    Rewritten dec o o'' := by
  refine ⟨h'.erase.trans h.erase, fun ht => h'.tidy (h.tidy ht), fun dst d hd => ?_⟩
  rcases h'.freeze dst d hd with hd | hd
  · exact h.freeze dst d hd
  · exact .inr hd

theorem scalar_redirect (d n : ℕ) (c : Cell) : (redirect d (current d n) c).scalar = c.scalar := by
  unfold redirect
  split
  · subst_vars
    exact current_scalar d n
  · rfl

theorem rewritten_atVersion (o : Op S) (n : ℕ) : Rewritten dec o (o.atVersion d n) := by
  cases o with
  | load dst c =>
    refine ⟨?_, fun h d' x hx => ?_, fun _ _ => fun h => by cases h⟩
    · show (Op.load dst _ : Op S) = Op.load dst _
      rw [scalar_redirect]
    · have hx : redirect d (current d n) c = .frozen d' x := hx
      unfold redirect current at hx
      split at hx
      · split at hx <;> cases hx
      · exact h d' x hx
  | write c v =>
    refine ⟨?_, id, fun _ _ => fun h => by cases h⟩
    show (Op.write _ v : Op S) = Op.write _ v
    rw [scalar_redirect]
  | _ => exact Rewritten.refl _

theorem rewritten_freezeExtent (hd : dec d = .frozen) (o : Op S) (ops : List (Op S)) :
    Rewritten dec o (o.freezeExtent ops d) := by
  cases o with
  | load dst c =>
    show Rewritten dec _ (if _ then _ else _)
    split
    · rename_i he
      obtain rfl : c = .own d := by
        simp only [Op.extentLoad, Bool.and_eq_true, decide_eq_true_eq] at he
        exact he.1
      refine ⟨rfl, fun _ => trivial, fun dst' d' h => .inr ?_⟩
      rw [← (Op.freeze.inj h).2]
      exact hd
    · exact Rewritten.refl _
  | _ => exact Rewritten.refl _

theorem versionOne_rewritten (b : Block S)
    (hd : decision d b = .frozen → dec d = .frozen) :
    Block.Related (Rewritten dec) b (versionOne d b) := by
  unfold versionOne
  cases hdec : decision d b with
  | untouched => exact .refl Rewritten.refl b
  | versioned => exact version_related Rewritten.refl rewritten_atVersion _ b
  | frozen => exact freezeExtents_related (fun o => rewritten_freezeExtent (hd hdec) o b.ops) b

theorem Block.Related.trans {R : Op S → Op S → Prop}
    (hR : ∀ {o o' o''}, R o o' → R o' o'' → R o o'')
    {b b' b'' : Block S} (h : Block.Related R b b') (h' : Block.Related R b' b'') :
    Block.Related R b b'' := by
  induction h generalizing b'' with
  | done =>
    cases h'
    exact .done
  | op ho _ ih =>
    cases h' with
    | op ho' hr' => exact .op (hR ho ho') (ih hr')
  | branch _ _ _ iht ihe ihr =>
    cases h' with
    | branch ht he hr => exact .branch (iht ht) (ihe he) (ihr hr)
  | loop _ _ ihb ihr =>
    cases h' with
    | loop hb hr => exact .loop (ihb hb) (ihr hr)

theorem versionShapeScalars_rewritten {ds : List ℕ} (hnd : ds.Nodup) (b : Block S)
    (h : ∀ d ∈ ds, decisionAt ds b d = .frozen → dec d = .frozen) :
    Block.Related (Rewritten dec) b (versionShapeScalars ds b) := by
  induction ds generalizing b with
  | nil => exact .refl Rewritten.refl b
  | cons d ds ih =>
    obtain ⟨hd, hds⟩ := nodup_cons.mp hnd
    have hone : Block.Related (Rewritten dec) b (versionOne d b) := by
      refine versionOne_rewritten b fun hdec => h d mem_cons_self ?_
      rwa [decisionAt, if_pos rfl]
    refine Block.Related.trans (R := Rewritten dec) (fun h h' => h.trans h') hone
      (ih hds (versionOne d b) ?_)
    intro x hx hdec
    have hne : x ≠ d := fun heq => hd (heq ▸ hx)
    apply h x (mem_cons_of_mem d hx)
    rwa [decisionAt, if_neg hne]

/-! ## A run and its path -/

/-- A cell of the run comes from a load of the path. -/
def ComesFrom (l : ScalarLoad) (c : Cell) : Prop :=
  c.scalar = l.scalar ∧ ∀ d x, c = .frozen d x → x = l.dst

/-- A live array of the run is one of the path. -/
def LiveAlike (e : LiveLoad) (e' : Live) : Prop := e'.array = e.array ∧ ComesFrom e.load e'.cell

/-- The operations are the same up to cells, those of the path being declares' own. -/
def Alike (dec : ℕ → Decision) (o o' : Op S) : Prop := Rewritten dec o o' ∧ o.Source

/-- The run and the path are at the same place. -/
structure Follows (dec : ℕ → Decision) (p : Path S) (s : State S) : Prop where
  todo : Forall₂ (Block.Related (Alike dec)) p.todo s.todo
  source : ∀ v, Forall₂ ComesFrom (p.source v) (s.source v)
  live : Forall₂ LiveAlike p.live s.live
  next : s.next = p.next
  stored : s.stored = p.stored

section

variable {p : Path S} {s : State S}

theorem Follows.source_flatMap (h : Follows dec p s) (vs : List ℕ) :
    Forall₂ ComesFrom (vs.flatMap p.source) (vs.flatMap s.source) := by
  induction vs with
  | nil => exact .nil
  | cons v vs ih =>
    rw [flatMap_cons, flatMap_cons]
    exact rel_append (h.source v) ih

theorem source_update {f : ℕ → List ScalarLoad} {g : ℕ → List Cell}
    (h : ∀ v, Forall₂ ComesFrom (f v) (g v))
    {dst : ℕ} {l : List ScalarLoad} {c : List Cell} (hl : Forall₂ ComesFrom l c) (v : ℕ) :
    Forall₂ ComesFrom (Function.update f dst l v) (Function.update g dst c v) := by
  by_cases hv : v = dst
  · subst hv
    rw [Function.update_self, Function.update_self]
    exact hl
  · rw [Function.update_of_ne hv, Function.update_of_ne hv]
    exact h v

theorem Source.tidy {o : Op S} (h : o.Source) : o.Tidy := by
  cases o with
  | load dst c =>
    intro d x hx
    have hc : c = .own c.scalar := h
    rw [hx] at hc
    cases hc
  | _ => trivial

/-- **One operation** of the run and of the path. -/
theorem Follows.exec (h : Follows dec p s) {o o' : Op S} (ho : Alike dec o o')
    {k k' : List (Block S)}
    (hk : Forall₂ (Block.Related (Alike dec)) k k') :
    Follows dec (p.exec s.data k o) (ShapeScalars.exec s k' o') := by
  obtain ⟨⟨herase, htidy, -⟩, hsource⟩ := ho
  -- the operation after the pass is the one before it, but for the cell it names
  cases o with
  | load dst c =>
    cases o' with
    | load dst' c' =>
      obtain ⟨rfl, hc⟩ : dst' = dst ∧ Cell.own c'.scalar = Cell.own c.scalar := by
        simpa [Op.erase] using herase
      refine ⟨hk, source_update h.source
        (.cons ⟨Cell.own.inj hc, htidy (Source.tidy hsource)⟩ .nil),
        h.live, h.next, h.stored⟩
    | freeze dst' d =>
      -- a load that became a freeze reads the same scalar
      obtain ⟨rfl, hd⟩ : dst' = dst ∧ d = c.scalar := by simpa [Op.erase] using herase
      refine ⟨hk, source_update h.source (.cons ⟨hd, fun d' x hx => ?_⟩ .nil), h.live,
        h.next, h.stored⟩
      exact (Cell.frozen.inj hx).2.symm
    | _ => simp [Op.erase] at herase
  | write c v =>
    cases o' with
    | write c' v' =>
      obtain ⟨hc, rfl⟩ : c'.scalar = c.scalar ∧ v' = v := by simpa [Op.erase] using herase
      refine ⟨hk, h.source, h.live, h.next, ?_⟩
      show Function.update s.stored c'.scalar (s.stored c'.scalar + 1) =
        Function.update p.stored c.scalar (p.stored c.scalar + 1)
      rw [hc, h.stored]
    | _ => simp [Op.erase] at herase
  | freeze dst d => exact hsource.elim
  | extent dst operands f =>
    cases o' with
    | extent dst' operands' f' =>
      obtain ⟨rfl, rfl, rfl⟩ : dst' = dst ∧ operands' = operands ∧ f' = f := by
        simpa [Op.erase] using herase
      exact ⟨hk, source_update h.source (h.source_flatMap operands'), h.live, h.next, h.stored⟩
    | _ => simp [Op.erase] at herase
  | allocmem extents =>
    cases o' with
    | allocmem extents' =>
      obtain rfl : extents' = extents := by simpa [Op.erase] using herase
      refine ⟨hk, h.source, rel_append ?_ h.live, ?_, h.stored⟩
      · rw [forall₂_map_left_iff, forall₂_map_right_iff]
        exact (h.source_flatMap extents').imp fun _ _ hc => ⟨h.next, hc⟩
      · show s.next + 1 = p.next + 1
        rw [h.next]
    | _ => simp [Op.erase] at herase
  | freemem dead =>
    cases o' with
    | freemem dead' =>
      obtain rfl : dead' = dead := by simpa [Op.erase] using herase
      refine ⟨hk, h.source, ?_, h.next, h.stored⟩
      refine rel_filter ?_ h.live
      intro e e' he
      show (!dead' s.data e.array) = true ↔ (!dead' s.data e'.array) = true
      rw [he.1]
    | _ => simp [Op.erase] at herase
  | other f =>
    cases o' with
    | other f' => exact ⟨hk, h.source, h.live, h.next, h.stored⟩
    | _ => simp [Op.erase] at herase

/-- **One step** of the run and of the path, with the run's decision. -/
theorem Follows.next_step (h : Follows dec p s) : Follows dec (p.step s.data) (step s) := by
  have htodo := h.todo
  unfold Path.step step
  cases hpt : p.todo with
  | nil =>
    rw [hpt] at htodo
    cases hst : s.todo with
    | nil => exact h
    | cons y k' =>
      rw [hst] at htodo
      cases htodo
  | cons x k =>
    rw [hpt] at htodo
    cases hst : s.todo with
    | nil =>
      rw [hst] at htodo
      cases htodo
    | cons y k' =>
      rw [hst] at htodo
      obtain ⟨hx, hk⟩ := forall₂_cons.1 htodo
      cases hx with
      | done => exact ⟨hk, h.source, h.live, h.next, h.stored⟩
      | op ho hr => exact h.exec ho (.cons hr hk)
      | branch ht he hr =>
        refine ⟨?_, h.source, h.live, h.next, h.stored⟩
        simp only
        split
        · exact .cons ht (.cons hr hk)
        · exact .cons he (.cons hr hk)
      | loop hb hr =>
        refine ⟨?_, h.source, h.live, h.next, h.stored⟩
        simp only
        split
        · exact .cons hb (.cons (.loop hb hr) hk)
        · exact .cons hr hk

end

/-- The path that takes the decisions of a run of the rewritten function stays with it. -/
theorem follows_run (f : Function S) (data : Data S) (cells : Cell → ℤ) (n : ℕ) :
    Follows (decisionAt f.declares f.body) (pathAt f.body
        (fun m => (run (start (versionShapeScalars f.declares f.body) data cells) m).data) n)
      (run (start (versionShapeScalars f.declares f.body) data cells) n) := by
  induction n with
  | zero =>
    refine ⟨.cons ?_ .nil, fun _ => .nil, .nil, rfl, rfl⟩
    have hrelated : Block.Related (Rewritten (decisionAt f.declares f.body)) f.body
        (versionShapeScalars f.declares f.body) :=
      versionShapeScalars_rewritten f.declares_nodup f.body fun _ _ h => h
    have hsource := f.body_source
    generalize decisionAt f.declares f.body = dec at hrelated
    generalize versionShapeScalars f.declares f.body = b' at hrelated
    generalize f.body = b at hrelated hsource
    induction hrelated with
    | done => exact .done
    | op ho _ ih =>
      exact .op ⟨ho, hsource _ mem_cons_self⟩ (ih fun o h => hsource o (mem_cons_of_mem _ h))
    | branch _ _ _ iht ihe ihr =>
      exact .branch (iht fun o h => hsource o (mem_append_left _ (mem_append_left _ h)))
        (ihe fun o h => hsource o (mem_append_left _ (mem_append_right _ h)))
        (ihr fun o h => hsource o (mem_append_right _ h))
    | loop _ _ ihb ihr =>
      exact .loop (ihb fun o h => hsource o (mem_append_left _ h))
        (ihr fun o h => hsource o (mem_append_right _ h))
  | succ n ih =>
    rw [run_succ]
    exact ih.next_step

end ShapeScalars
