/-
# `prune_branches` keeps the meaning

Up to one thing: an IF construct that is taken away is gone for an `EXIT` of its name too.
-/
import DaceFortran.Branches.PruneRuns

namespace Branches

variable {L : Language} {fold : L.Cond → Option Bool}

/-! ## The shape of the children -/

namespace Block

theorem Wf.append {m : Bool} {a b : Block L} (ha : a.Wf false) (hb : b.Wf m) :
    (a.append b).Wf m := by
  induction a with
  | nil => exact hb
  | act x rest ih => exact ih ha
  | ifStmt id cond x rest ih => exact ih ha
  | ifConstruct id name cond children rest _ ih => exact ⟨ha.1, ih ha.2⟩
  | elseIf cond rest ih => cases ha.1
  | elseStmt rest ih => cases ha.1
  | construct kind name n parts rest _ ih => exact ⟨ha.1, ih ha.2⟩

theorem Wf.firstArm {m : Bool} {b : Block L} (h : b.Wf m) : b.firstArm.Wf false := by
  induction b generalizing m with
  | nil => trivial
  | act x rest ih => exact ih h
  | ifStmt id cond x rest ih => exact ih h
  | ifConstruct id name cond children rest _ ih => exact ⟨h.1, ih h.2⟩
  | elseIf cond rest ih => trivial
  | elseStmt rest ih => trivial
  | construct kind name n parts rest _ ih => exact ⟨h.1, ih h.2⟩

/-- Statements without `ELSE` among them all come before the first one. -/
theorem firstArm_append {a : Block L} (ha : a.Wf false) (b : Block L) :
    (a.append b).firstArm = a.append b.firstArm := by
  induction a with
  | nil => rfl
  | act x rest ih => exact congrArg (act x) (ih ha)
  | ifStmt id cond x rest ih => exact congrArg (ifStmt id cond x) (ih ha)
  | ifConstruct id name cond children rest _ ih =>
      exact congrArg (ifConstruct id name cond children) (ih ha.2)
  | elseIf cond rest ih => cases ha.1
  | elseStmt rest ih => cases ha.1
  | construct kind name n parts rest _ ih => exact congrArg (construct kind name n parts) (ih ha.2)

end Block

variable {h : L.Cond → Bool}

theorem selectFrom_append {a : Block L} (ha : a.Wf false) (b : Block L) :
    selectFrom h (a.append b) = selectFrom h b := by
  induction a with
  | nil => rfl
  | act x rest ih => exact ih ha
  | ifStmt id cond x rest ih => exact ih ha
  | ifConstruct id name cond children rest _ ih => exact ih ha.2
  | elseIf cond rest ih => cases ha.1
  | elseStmt rest ih => cases ha.1
  | construct kind name n parts rest _ ih => exact ih ha.2

/-- The children that are kept, and those put in place of a construct. -/
def Resolved.Wf : Resolved L → Prop
  | keep _ children => children.Wf true
  | splice actions => actions.Wf false

variable {b : Block L}

theorem resolveFrom_wf (h : b.Wf true) : (resolveFrom fold b).Wf := by
  induction b with
  | nil => trivial
  | act x rest ih => exact ih h
  | ifStmt id cond x rest ih => exact ih h
  | ifConstruct id name cond children rest _ ih => exact ih h.2
  | elseIf cond rest ih =>
    rw [resolveFrom]
    split
    · exact h.2
    · exact Block.Wf.firstArm h.2
    · exact ih h.2
  | elseStmt rest ih => exact h.2
  | construct kind name n parts rest _ ih => exact ih h.2

variable {cond : L.Cond}

theorem resolve_wf {r : Resolved L} (hr : resolve fold cond b = r) (h : b.Wf true) :
    r.Wf := by
  rw [← hr, resolve]
  split
  · exact h
  · exact Block.Wf.firstArm h
  · exact resolveFrom_wf h

theorem Pruned.wf {m : Bool} {b b' : Block L} (h : Pruned fold b b') (hb : b.Wf m) : b'.Wf m := by
  induction h generalizing m with
  | nil => trivial
  | act a h ih => exact ih hb
  | ifStmt id a hc h ih => exact ih hb
  | ifStmtTrue id a hc h ih => exact ih hb
  | ifStmtFalse id a hc h ih => exact ih hb
  | keep hr hc h ihc ih =>
    exact ⟨ihc (resolve_wf hr hb.1), ih hb.2⟩
  | splice hr hc h ihc ih =>
    exact (ihc (resolve_wf hr hb.1)).append (ih hb.2)
  | elseIf cond h ih => exact ⟨hb.1, ih hb.2⟩
  | elseStmt h ih => exact ⟨hb.1, ih hb.2⟩
  | construct kind name hp h ihp ih => exact ⟨fun j => ihp j (hb.1 j), ih hb.2⟩

/-! ## What is selected -/

/-- What a false condition leaves is what is selected behind it. -/
theorem selectFrom_resolveFrom (hfold : ∀ c v, fold c = some v → h c = v) (b : Block L) :
    selectFrom h b = match resolveFrom fold b with
      | .keep cond children => selectArm h cond children
      | .splice actions => actions := by
  induction b with
  | nil => rfl
  | act x rest ih => exact ih
  | ifStmt id cond x rest ih => exact ih
  | ifConstruct id name cond children rest _ ih => exact ih
  | elseIf cond rest ih =>
    rw [selectFrom, resolveFrom]
    cases hc : fold cond with
    | none => rfl
    | some v =>
      rw [hfold cond v hc]
      cases v with
      | true => rfl
      | false => exact ih
  | elseStmt rest ih => rfl
  | construct kind name n parts rest _ ih => exact ih

theorem selectArm_resolve (hfold : ∀ c v, fold c = some v → h c = v) (cond : L.Cond)
    (b : Block L) : selectArm h cond b = match resolve fold cond b with
      | .keep cond' children => selectArm h cond' children
      | .splice actions => actions := by
  unfold resolve
  cases hc : fold cond with
  | none => rfl
  | some v =>
    rw [selectArm, hfold cond v hc]
    cases v with
    | true => rfl
    | false => exact selectFrom_resolveFrom hfold b

/-! ## Equivalent blocks -/

variable {W : World L}

/-- Two blocks have the same executions. -/
def Equiv (W : World L) (b b' : Block L) : Prop := ∀ s tr o s', Exec W (.block b) s tr o s' ↔
    Exec W (.block b') s tr o s'

theorem Equiv.refl (b : Block L) : Equiv W b b := fun _ _ _ _ => Iff.rfl

theorem Equiv.symm {b b' : Block L} (h : Equiv W b b') : Equiv W b' b :=
  fun s tr o s' => (h s tr o s').symm

theorem Equiv.trans {a b c : Block L} (h : Equiv W a b) (h' : Equiv W b c) : Equiv W a c :=
  fun s tr o s' => (h s tr o s').trans (h' s tr o s')

variable {o : Outcome L} {rest rest' : Block L} {s s' : W.State} {tr : List L.Action}

theorem exec_act {a : Act L} (h : Equiv W rest rest')
    (he : Exec W (.block (.act a rest)) s tr o s') : Exec W (.block (.act a rest')) s tr o s' := by
  cases he with
  | stop => exact .stop _ _
  | run hstep hrest => exact .run hstep ((h _ _ _ _).1 hrest)
  | jump s ho => exact .jump _ ho

theorem Equiv.act (a : Act L) (h : Equiv W rest rest') :
    Equiv W (.act a rest) (.act a rest') :=
  fun _ _ _ _ => ⟨exec_act h, exec_act h.symm⟩

theorem exec_ifStmt {id : ℕ} {a : Act L} (h : Equiv W rest rest')
    (he : Exec W (.block (.ifStmt id cond a rest)) s tr o s') :
    Exec W (.block (.ifStmt id cond a rest')) s tr o s' := by
  cases he with
  | stop => exact .stop _ _
  | ifTrue hc hact => exact .ifTrue hc (exec_act h hact)
  | ifFalse hc hrest => exact .ifFalse hc ((h _ _ _ _).1 hrest)

theorem Equiv.ifStmt (id : ℕ) (cond : L.Cond) (a : Act L) (h : Equiv W rest rest') :
    Equiv W (.ifStmt id cond a rest) (.ifStmt id cond a rest') :=
  fun _ _ _ _ => ⟨exec_ifStmt h, exec_ifStmt h.symm⟩

/-- A statement whose condition always holds. -/
theorem equiv_ifStmt_true (hc : ∀ s, W.holds cond s = true) (id : ℕ) (a : Act L) (rest : Block L) :
    Equiv W (.ifStmt id cond a rest) (.act a rest) := by
  intro s tr o s'
  constructor
  · intro he
    cases he with
    | stop => exact .stop _ _
    | ifTrue _ hact => exact hact
    | ifFalse hfalse _ =>
      rw [hc] at hfalse
      cases hfalse
  · exact fun he => .ifTrue (hc s) he

theorem equiv_ifStmt_false (hc : ∀ s, W.holds cond s = false) (id : ℕ) (a : Act L)
    (rest : Block L) :
    Equiv W (.ifStmt id cond a rest) rest := by
  intro s tr o s'
  constructor
  · intro he
    cases he with
    | stop => exact .stop _ _
    | ifTrue htrue _ =>
      rw [hc] at htrue
      cases htrue
    | ifFalse _ hrest => exact hrest
  · exact fun he => .ifFalse (hc s) he

variable {name : Option L.Name}

variable {children children' rest rest' : Block L} {cond cond' : L.Cond} {n : ℕ} {s s₁ s₂ : W.State}
  {tr tr' : List L.Action} {a b : Block L}

theorem exec_ifConstruct {id : ℕ}
    (harm : ∀ s, Equiv W (selectArm (W.holds · s) cond children)
      (selectArm (W.holds · s) cond' children'))
    (h : Equiv W rest rest')
    (he : Exec W (.block (.ifConstruct id name cond children rest)) s tr o s') :
    Exec W (.block (.ifConstruct id name cond' children' rest')) s tr o s' := by
  cases he with
  | stop => exact .stop _ _
  | ifNormal hsel ho hrest => exact .ifNormal ((harm s _ _ _ _).1 hsel) ho ((h _ _ _ _).1 hrest)
  | ifOut hsel ho => exact .ifOut ((harm s _ _ _ _).1 hsel) ho

theorem Equiv.ifConstruct (id : ℕ) (name : Option L.Name)
    (harm : ∀ s, Equiv W (selectArm (W.holds · s) cond children)
      (selectArm (W.holds · s) cond' children'))
    (h : Equiv W rest rest') :
    Equiv W (.ifConstruct id name cond children rest)
      (.ifConstruct id name cond' children' rest') :=
  fun _ _ _ _ => ⟨exec_ifConstruct harm h, exec_ifConstruct (fun s => (harm s).symm) h.symm⟩

variable {parts parts' : Fin n → Block L} {kind : L.Kind}

theorem equiv_partAt (hp : ∀ j, Equiv W (parts j) (parts' j)) (j : ℕ) :
    Equiv W (partAt parts j) (partAt parts' j) := by
  unfold partAt
  split
  · exact hp _
  · exact Equiv.refl _

theorem exec_turns
    (hp : ∀ j, Equiv W (parts j) (parts' j)) {ctl : W.Control}
    (he : Exec W (.turns kind name ctl n parts) s tr o s') :
    Exec W (.turns kind name ctl n parts') s tr o s' := by
  generalize hc : Code.turns kind name ctl n parts = c at he
  induction he generalizing ctl with
  | stop => exact .stop _ _
  | turnsDone hnext =>
    cases hc
    exact .turnsDone hnext
  | turnsOn hnext hpart ho hturns _ ih =>
    cases hc
    exact .turnsOn hnext ((equiv_partAt hp _ _ _ _ _).1 hpart) ho (ih rfl)
  | turnsOut hnext hpart ho =>
    cases hc
    exact .turnsOut hnext ((equiv_partAt hp _ _ _ _ _).1 hpart) ho
  | nil => cases hc
  | run => cases hc
  | jump => cases hc
  | ifTrue => cases hc
  | ifFalse => cases hc
  | ifNormal => cases hc
  | ifOut => cases hc
  | constructNormal => cases hc
  | constructOut => cases hc

theorem exec_construct
    (hp : ∀ j, Equiv W (parts j) (parts' j)) (h : Equiv W rest rest')
    (he : Exec W (.block (.construct kind name n parts rest)) s tr o s') :
    Exec W (.block (.construct kind name n parts' rest')) s tr o s' := by
  cases he with
  | stop => exact .stop _ _
  | constructNormal hturns hrest =>
      exact .constructNormal (exec_turns hp hturns) ((h _ _ _ _).1 hrest)
  | constructOut hturns ho => exact .constructOut (exec_turns hp hturns) ho

theorem Equiv.construct (kind : L.Kind) (name : Option L.Name)
    (hp : ∀ j, Equiv W (parts j) (parts' j)) (h : Equiv W rest rest') :
    Equiv W (.construct kind name n parts rest) (.construct kind name n parts' rest') :=
  fun _ _ _ _ => ⟨exec_construct hp h, exec_construct (fun j => (hp j).symm) h.symm⟩

/-! ## One list behind another -/

theorem Act.outcome_ne_normal (a : Act L) : a.outcome ≠ some .normal := by
  cases a with
  | run a => exact nofun
  | exit name => exact nofun
  | cycle name => exact nofun
  | leave => exact nofun

theorem exec_act_append {a : Act L} {rest b : Block L}
    (ih : ∀ {s tr}, Exec W (.block rest) s tr .normal s₁ →
      Exec W (.block (rest.append b)) s (tr ++ tr') o s₂)
    (h : Exec W (.block (.act a rest)) s tr .normal s₁) :
    Exec W (.block (.act a (rest.append b))) s (tr ++ tr') o s₂ := by
  cases h with
  | run hstep hrest => exact .run hstep (ih hrest)
  | jump s ho => exact absurd ho a.outcome_ne_normal

theorem exec_append_normal
    (ha : Exec W (.block a) s tr .normal s₁) (hb : Exec W (.block b) s₁ tr' o s₂) :
    Exec W (.block (a.append b)) s (tr ++ tr') o s₂ := by
  induction a generalizing s tr with
  | nil =>
    cases ha with
    | nil => exact hb
  | act x rest ih => exact exec_act_append ih ha
  | ifStmt id cond x rest ih =>
    cases ha with
    | ifTrue hc hact => exact .ifTrue hc (exec_act_append ih hact)
    | ifFalse hc hrest => exact .ifFalse hc (ih hrest)
  | ifConstruct id name cond children rest _ ih =>
    generalize ho' : Outcome.normal = o' at ha
    cases ha with
    | stop => cases ho'
    | ifNormal harm ho hrest =>
      rw [List.append_assoc]
      exact .ifNormal harm ho (ih (ho' ▸ hrest))
    | ifOut harm ho => exact absurd ho'.symm ho
  | elseIf cond rest ih => cases ha
  | elseStmt rest ih => cases ha
  | construct kind name n parts rest _ ih =>
    cases ha with
    | constructNormal hturns hrest =>
      rw [List.append_assoc]
      exact .constructNormal hturns (ih hrest)
    | constructOut hturns ho => exact absurd rfl ho

theorem exec_append_out {s s₁ : W.State}
    (ha : Exec W (.block a) s tr o s₁) (ho : o ≠ .normal) :
    Exec W (.block (a.append b)) s tr o s₁ := by
  have hact : ∀ {x : Act L} {rest : Block L} {s : W.State} {tr : List L.Action},
      (∀ {s tr}, Exec W (.block rest) s tr o s₁ → Exec W (.block (rest.append b)) s tr o s₁) →
      Exec W (.block (.act x rest)) s tr o s₁ →
        Exec W (.block (.act x (rest.append b))) s tr o s₁ := by
    intro x rest s tr ih h
    cases h with
    | stop => exact .stop _ _
    | run hstep hrest => exact .run hstep (ih hrest)
    | jump s hx => exact .jump _ hx
  induction a generalizing s tr with
  | nil =>
    cases ha with
    | stop => exact .stop _ _
    | nil => exact absurd rfl ho
  | act x rest ih => exact hact ih ha
  | ifStmt id cond x rest ih =>
    cases ha with
    | stop => exact .stop _ _
    | ifTrue hc hx => exact .ifTrue hc (hact ih hx)
    | ifFalse hc hrest => exact .ifFalse hc (ih hrest)
  | ifConstruct id name cond children rest _ ih =>
    cases ha with
    | stop => exact .stop _ _
    | ifNormal harm hn hrest => exact .ifNormal harm hn (ih hrest)
    | ifOut harm hn => exact .ifOut harm hn
  | elseIf cond rest ih =>
    cases ha with
    | stop => exact .stop _ _
  | elseStmt rest ih =>
    cases ha with
    | stop => exact .stop _ _
  | construct kind name n parts rest _ ih =>
    cases ha with
    | stop => exact .stop _ _
    | constructNormal hturns hrest => exact .constructNormal hturns (ih hrest)
    | constructOut hturns hn => exact .constructOut hturns hn

/-- An execution of two lists: the first one ends and the second goes on, or the first does not end
normally. -/
theorem exec_append_cases
    (h : Exec W (.block (a.append b)) s tr o s') :
    (∃ s₁ tr₁ tr₂, Exec W (.block a) s tr₁ .normal s₁ ∧ Exec W (.block b) s₁ tr₂ o s' ∧
      tr = tr₁ ++ tr₂) ∨
      o ≠ .normal ∧ Exec W (.block a) s tr o s' := by
  have hstop : ∀ {a : Block L} {s : W.State}, Outcome.unfinished ≠ (.normal : Outcome L) ∧
      Exec W (.block a) s [] .unfinished s := fun {a s} => ⟨nofun, .stop _ _⟩
  have hact : ∀ {x : Act L} {rest : Block L} {s : W.State} {tr : List L.Action},
      (∀ {s tr}, Exec W (.block (rest.append b)) s tr o s' →
        (∃ s₁ tr₁ tr₂, Exec W (.block rest) s tr₁ .normal s₁ ∧ Exec W (.block b) s₁ tr₂ o s' ∧
          tr = tr₁ ++ tr₂) ∨
          o ≠ .normal ∧ Exec W (.block rest) s tr o s') →
      Exec W (.block (.act x (rest.append b))) s tr o s' →
        (∃ s₁ tr₁ tr₂, Exec W (.block (.act x rest)) s tr₁ .normal s₁ ∧
          Exec W (.block b) s₁ tr₂ o s' ∧
          tr = tr₁ ++ tr₂) ∨ o ≠ .normal ∧ Exec W (.block (.act x rest)) s tr o s' := by
    intro x rest s tr ih h
    cases h with
    | stop => exact Or.inr hstop
    | run hstep hrest =>
      rcases ih hrest with ⟨s₁, tr₁, tr₂, h₁, h₂, rfl⟩ | ⟨hn, h₁⟩
      · exact Or.inl ⟨s₁, _, tr₂, .run hstep h₁, h₂, rfl⟩
      · exact Or.inr ⟨hn, .run hstep h₁⟩
    | jump s hx => exact Or.inr ⟨fun hn => x.outcome_ne_normal (hn ▸ hx), .jump _ hx⟩
  induction a generalizing s tr with
  | nil => exact Or.inl ⟨s, [], tr, .nil s, h, rfl⟩
  | act x rest ih => exact hact ih h
  | ifStmt id cond x rest ih =>
    cases h with
    | stop => exact Or.inr hstop
    | ifTrue hc hx =>
      rcases hact ih hx with ⟨s₁, tr₁, tr₂, h₁, h₂, rfl⟩ | ⟨hn, h₁⟩
      · exact Or.inl ⟨s₁, tr₁, tr₂, .ifTrue hc h₁, h₂, rfl⟩
      · exact Or.inr ⟨hn, .ifTrue hc h₁⟩
    | ifFalse hc hrest =>
      rcases ih hrest with ⟨s₁, tr₁, tr₂, h₁, h₂, rfl⟩ | ⟨hn, h₁⟩
      · exact Or.inl ⟨s₁, tr₁, tr₂, .ifFalse hc h₁, h₂, rfl⟩
      · exact Or.inr ⟨hn, .ifFalse hc h₁⟩
  | ifConstruct id name cond children rest _ ih =>
    cases h with
    | stop => exact Or.inr hstop
    | ifNormal harm ho hrest =>
      rcases ih hrest with ⟨s₁, tr₁, tr₂, h₁, h₂, rfl⟩ | ⟨hn, h₁⟩
      · exact Or.inl ⟨s₁, _, tr₂, .ifNormal harm ho h₁, h₂, (List.append_assoc _ _ _).symm⟩
      · exact Or.inr ⟨hn, .ifNormal harm ho h₁⟩
    | ifOut harm ho => exact Or.inr ⟨ho, .ifOut harm ho⟩
  | elseIf cond rest ih =>
    cases h with
    | stop => exact Or.inr hstop
  | elseStmt rest ih =>
    cases h with
    | stop => exact Or.inr hstop
  | construct kind name n parts rest _ ih =>
    cases h with
    | stop => exact Or.inr hstop
    | constructNormal hturns hrest =>
      rcases ih hrest with ⟨s₁, tr₁, tr₂, h₁, h₂, rfl⟩ | ⟨hn, h₁⟩
      · exact Or.inl ⟨s₁, _, tr₂, .constructNormal hturns h₁, h₂, (List.append_assoc _ _ _).symm⟩
      · exact Or.inr ⟨hn, .constructNormal hturns h₁⟩
    | constructOut hturns ho => exact Or.inr ⟨ho, .constructOut hturns ho⟩

theorem exec_append {a a' b b' : Block L} (ha : Equiv W a a') (hb : Equiv W b b')
    (h : Exec W (.block (a.append b)) s tr o s') :
    Exec W (.block (a'.append b')) s tr o s' := by
  rcases exec_append_cases h with ⟨s₁, tr₁, tr₂, h₁, h₂, rfl⟩ | ⟨hn, h₁⟩
  · exact exec_append_normal ((ha _ _ _ _).1 h₁) ((hb _ _ _ _).1 h₂)
  · exact exec_append_out ((ha _ _ _ _).1 h₁) hn

theorem Equiv.append {a a' b b' : Block L} (ha : Equiv W a a') (hb : Equiv W b b') :
    Equiv W (a.append b) (a'.append b') :=
  fun _ _ _ _ => ⟨exec_append ha hb, exec_append ha.symm hb.symm⟩

/-! ## A construct and its arm -/

theorem catchExit_eq_normal (h : catchExit name o = .normal) :
    o = .normal ∨ ∃ n, name = some n ∧ o = .exit (some n) := by
  unfold catchExit at h
  split at h
  · next n =>
    split at h
    · next hn => exact Or.inr ⟨n, hn, rfl⟩
    · cases h
  · exact Or.inl h

theorem catchExit_of_ne (h : catchExit name o ≠ .normal) :
    catchExit name o = o ∧ o ≠ .normal := by
  unfold catchExit at h ⊢
  split at h
  · next n =>
    split at h
    · exact absurd rfl h
    · next hn =>
      rw [if_neg hn]
      exact ⟨rfl, h⟩
  · exact ⟨rfl, h⟩

/-- **A construct whose arm is always the same** is equivalent to this arm, if it is never left
through its name. -/
theorem equiv_splice {children actions : Block L}
    (harm : ∀ s, selectArm (W.holds · s) cond children = actions)
    (hexit : ∀ n, name = some n → ∀ s tr s', ¬ Exec W (.block actions) s tr (.exit (some n)) s')
    (id : ℕ)
    (rest : Block L) : Equiv W (.ifConstruct id name cond children rest) (actions.append rest) := by
  intro s tr o s'
  constructor
  · intro h
    cases h with
    | stop => exact .stop _ _
    | ifNormal hsel ho hrest =>
      rw [harm] at hsel
      rcases catchExit_eq_normal ho with rfl | ⟨n, hname, rfl⟩
      · exact exec_append_normal hsel hrest
      · exact absurd hsel (hexit n hname _ _ _)
    | ifOut hsel ho =>
      rw [harm] at hsel
      obtain ⟨heq, hn⟩ := catchExit_of_ne ho
      rw [heq]
      exact exec_append_out hsel hn
  · intro h
    rcases exec_append_cases h with ⟨s₁, tr₁, tr₂, h₁, h₂, rfl⟩ | ⟨hn, h₁⟩
    · rw [← harm s] at h₁
      exact .ifNormal h₁ rfl h₂
    · have hcatch : catchExit name o = o := by
        by_cases ho : catchExit name o = .normal
        · rcases catchExit_eq_normal ho with rfl | ⟨n, hname, rfl⟩
          · exact absurd rfl hn
          · exact absurd h₁ (hexit n hname _ _ _)
        · exact (catchExit_of_ne ho).1
      rw [← hcatch] at hn ⊢
      rw [← harm s] at h₁
      exact .ifOut h₁ hn

/-! ## Exits that are kept -/

variable {n : L.Name}

theorem KeptExit.of_firstArm (h : KeptExit fold n b.firstArm) : KeptExit fold n b := by
  induction b with
  | nil => exact h
  | act a rest ih =>
    cases h with
    | act => exact .act rest
    | afterAct a h => exact .afterAct a (ih h)
  | ifStmt id cond a rest ih =>
    cases h with
    | ifStmt id _ hc => exact .ifStmt id rest hc
    | afterIfStmt id cond a h => exact .afterIfStmt id cond a (ih h)
  | ifConstruct id name cond children rest _ ih =>
    cases h with
    | keep _ hname hr h => exact .keep rest hname hr h
    | splice _ hr h => exact .splice rest hr h
    | afterIf id name cond children h => exact .afterIf id name cond children (ih h)
  | elseIf cond rest ih => cases h
  | elseStmt rest ih => cases h
  | construct kind name m parts rest _ ih =>
    cases h with
    | part _ j hname h => exact .part rest j hname h
    | afterConstruct kind name m parts h => exact .afterConstruct kind name m parts (ih h)

theorem KeptExit.of_selectFrom
    (hb : KeptExit fold n (selectFrom h b)) : KeptExit fold n b := by
  induction b with
  | nil => exact hb
  | act a rest ih => exact .afterAct a (ih hb)
  | ifStmt id cond a rest ih => exact .afterIfStmt id cond a (ih hb)
  | ifConstruct id name cond children rest _ ih => exact .afterIf id name cond children (ih hb)
  | elseIf cond rest ih =>
    rw [selectFrom] at hb
    split at hb
    · exact .afterElseIf cond (.of_firstArm hb)
    · exact .afterElseIf cond (ih hb)
  | elseStmt rest ih => exact .afterElse hb
  | construct kind name m parts rest _ ih => exact .afterConstruct kind name m parts (ih hb)

theorem KeptExit.of_selectArm
    (hb : KeptExit fold n (selectArm h cond b)) : KeptExit fold n b := by
  unfold selectArm at hb
  split at hb
  · exact .of_firstArm hb
  · exact .of_selectFrom hb

/-- The exits of what a piece of code is left through. -/
def CodeExit (fold : L.Cond → Option Bool) (n : L.Name) : Code W → Prop
  | .block b => KeptExit fold n b
  | .turns _ name _ _ parts => name ≠ some n ∧ ∃ j, KeptExit fold n (parts j)

theorem turnOutcome_exit {isLoop : Bool}
    (h : turnOutcome isLoop name o = some (.exit (some n))) :
    o = .exit (some n) ∧ name ≠ some n := by
  cases o with
  | normal => cases h
  | exit m =>
    cases m with
    | none =>
      cases isLoop with
      | true => cases h
      | false => cases h
    | some m =>
      rw [turnOutcome] at h
      split at h
      · cases h
      · next hm =>
        have hmn : m = n := by injection h with h; injection h with h; injection h
        exact ⟨hmn ▸ rfl, hmn ▸ hm⟩
  | cycle m =>
    cases m with
    | none =>
      cases isLoop with
      | true => cases h
      | false => cases h
    | some m =>
      rw [turnOutcome] at h
      split at h
      · cases h
      · cases h
  | leave => cases h
  | unfinished => cases h

/-- **Code that is left through a name has an exit of this name that is kept.** -/
theorem codeExit_of_exec (hfold : FoldSound fold W) {c : Code W}
    (h : Exec W c s tr (.exit (some n)) s') : CodeExit fold n c := by
  generalize ho : (.exit (some n) : Outcome L) = o at h
  -- on the execution; a branch that folds to false is not entered
  induction h with
  | stop => cases ho
  | nil => cases ho
  | run hstep hrest ih => exact .afterAct _ (ih ho)
  | @jump a rest o s ha =>
    cases a with
    | run a => cases ha
    | exit m =>
      rw [← ho] at ha
      have hm : m = some n := by injection ha with ha; injection ha
      rw [hm]
      exact .act rest
    | cycle m =>
      rw [← ho] at ha
      injection ha with ha
      cases ha
    | leave =>
      rw [← ho] at ha
      injection ha with ha
      cases ha
  | @ifTrue id cond a rest s s' tr o hc hact ih =>
    have hnot : fold cond ≠ some false := by
      intro hf
      rw [hfold cond false hf s] at hc
      cases hc
    have hk : KeptExit fold n (.act a rest) := ih ho
    cases hk with
    | act => exact .ifStmt id rest hnot
    | afterAct _ h => exact .afterIfStmt id cond a h
  | ifFalse hc hrest ih => exact .afterIfStmt _ _ _ (ih ho)
  | ifNormal harm hn hrest _ ih => exact .afterIf _ _ _ _ (ih ho)
  | @ifOut id name cond children rest s s₁ tr o harm hn ih =>
    obtain ⟨heq, -⟩ := catchExit_of_ne hn
    rw [heq] at ho
    have hname : name ≠ some n := by
      intro hname
      rw [← ho, hname, catchExit, if_pos rfl] at hn
      exact hn rfl
    have hk : KeptExit fold n (selectArm (W.holds · s) cond children) := ih ho
    rw [selectArm_resolve fun c v hc => hfold c v hc s] at hk
    cases hr : resolve fold cond children with
    | keep cond' children' =>
      rw [hr] at hk
      exact .keep rest hname hr (.of_selectArm hk)
    | splice actions =>
      rw [hr] at hk
      exact .splice rest hr hk
  | constructNormal hturns hrest _ ih => exact .afterConstruct _ _ _ _ (ih ho)
  | constructOut hturns hn ih =>
    obtain ⟨hname, j, hj⟩ := ih ho
    exact .part _ j hname hj
  | turnsDone => cases ho
  | turnsOn hnext hpart hn hturns _ ih => exact ih ho
  | @turnsOut kind name ctl ctl' m j parts s s₀ s₁ tr o o' hnext hpart hn ih =>
    rw [← ho] at hn
    obtain ⟨heq, hname⟩ := turnOutcome_exit hn
    have hk : KeptExit fold n (partAt parts j) := ih heq.symm
    unfold partAt at hk
    split at hk
    · exact ⟨hname, _, hk⟩
    · cases hk

end Branches
