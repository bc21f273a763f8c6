/-
# Sinking a store preserves the runs

Code that does not access private memory runs the same whatever that memory holds.  So a
write into it can be run behind such code instead of in front of it, in every run and with
the same loads; a run of the module changes block by block, and the pass move by move.
-/
import DaceFortran.SinkStores.PrivateMemory

open List

namespace SinkStores

variable {ι D : Type} [DecidableEq ι]

/-! ## Code without accesses -/

/-- Operations that do not access the memory of `a`, with everything nested in them. -/
structure Clear (M : Ir ι) (a : ι) (S : ι → Prop) : Prop where
  inner : ∀ {o o'}, S o → M.blockOf o' ∈ (M.op o).blocks → S o'
  load : ∀ {o memref result}, S o → M.op o = .load memref result → ¬ M.Derived a memref
  store : ∀ {o value memref}, S o → M.op o = .store value memref → ¬ M.Derived a memref
  assign : ∀ {o rhs lhs scalarRhs}, S o → M.op o = .assign rhs lhs scalarRhs → ¬ M.Derived a lhs

/-- The operations that a piece of code starts with. -/
def Code.In (S : ι → Prop) : Code ι D → Prop
  | .run o => S o
  | .seq ops => ∀ o ∈ ops, S o
  | .drive o _ _ => S o

namespace Ir

variable {M : Ir ι} {R : Machine ι D} {L L' : Layout ι} {a : ι} {acc : Accesses ι} {s : State ι D}
  {S : ι → Prop} {r : Root ι}

/-- A write elsewhere. -/
theorem write_frame (hr : IsLocal a r) (obj : D → Val ι D) (o : ι) (addr x : Val ι D)
    (haddr : ∀ r', addr.root = some r' → ¬ IsLocal a r') :
    M.write R o addr x (s.put r obj) = (M.write R o addr x s).put r obj ∧
      (M.write R o addr x s).mem r = s.mem r := by
  rw [write, write]
  cases hroot : addr.root with
  | none => exact ⟨rfl, rfl⟩
  | some r' =>
    have hne : r ≠ r' := by
      rintro rfl
      exact haddr r hroot hr
    constructor
    · simp only [State.put_mem_of_ne hne.symm]
      rw [State.put_comm s hne]
      rfl
    · exact State.put_mem_of_ne hne s _

/-- **An operation that does not access the memory runs the same whatever it holds.** -/
theorem effect_frame (hS : Clear M a S) (hs : Private M a s) (hr : IsLocal a r)
    (obj : D → Val ι D) {o : ι} (ho : S o) :
    M.effect R o (s.put r obj) = ((M.effect R o s).1, (M.effect R o s).2.put r obj) ∧
      (M.effect R o s).2.mem r = s.mem r := by
  cases hop : M.op o with
  | alloca scalar sizes result =>
    simp only [effect, hop, State.put_bind]
    exact ⟨rfl, congrFun (State.bind_mem _ _ _) r⟩
  | declare memref others results =>
    simp only [effect, hop, State.put_bind]
    exact ⟨rfl, congrFun (State.bind_mem _ _ _) r⟩
  | convert value result =>
    simp only [effect, hop, State.put_bind]
    exact ⟨rfl, congrFun (State.bind_mem _ _ _) r⟩
  | load memref result =>
    simp only [effect, hop, State.put_bind]
    refine ⟨?_, congrFun (State.bind_mem _ _ _) r⟩
    cases hroot : (s.env memref).root with
    | none =>
      have : ((s.put r obj).env memref).root = none := hroot
      simp only [this]
    | some r' =>
      -- the code loads from no address derived from the alloca
      have hne : r' ≠ r := by
        rintro rfl
        exact hS.load ho hop ((hs.env memref r' hroot).1 hr)
      have : ((s.put r obj).env memref).root = some r' := hroot
      simp only [this, State.put_mem_of_ne hne]
      rfl
  | store value memref =>
    have hw := write_frame (M := M) (R := R) (s := s) hr obj o (s.env memref) (s.env value)
      (fun r' hr' hlocal => hS.store ho hop ((hs.env memref r' hr').1 hlocal))
    simp only [effect, hop]
    exact ⟨congrArg (Prod.mk []) hw.1, hw.2⟩
  | assign rhs lhs scalarRhs =>
    have hw := write_frame (M := M) (R := R) (s := s) hr obj o (s.env lhs) ⟨none, (s.env rhs).data⟩
      (fun r' hr' hlocal => hS.assign ho hop ((hs.env lhs r' hr').1 hlocal))
    simp only [effect, hop]
    exact ⟨congrArg (Prod.mk []) hw.1, hw.2⟩
  | terminator operands =>
    simp only [effect, hop]
    exact ⟨rfl, rfl⟩
  | other operands results blocks =>
    simp only [effect, hop]
    exact ⟨trivial, trivial⟩

variable {log : Log ι D} {res : Option (State ι D)}

variable {c : Code ι D} {w : ι}

/-- **Code that does not access the memory runs the same whatever it holds, and leaves it as it
is.** -/
theorem exec_frame (hL : M.Arranged L) (h : M.NonEscaping a acc) (hS : Clear M a S)
    (hr : IsLocal a r)
    (obj : D → Val ι D) (he : Exec M R L c s log res) :
    c.In S → Private M a s → Exec M R L c (s.put r obj) log (res.map (fun s' => s'.put r obj)) ∧
      ∀ s', res = some s' → s'.mem r = s.mem r := by
  induction he with
  | stop => exact fun _ _ => ⟨.stop, fun s' hs' => by cases hs'⟩
  | @simple o s hop =>
    intro hc hs
    obtain ⟨heff, hmem⟩ := effect_frame (R := R) hS hs hr obj hc
    constructor
    · have := Exec.simple (R := R) (L := L) (s := s.put r obj) hop
      rw [heff] at this
      exact this
    · intro s' hs'
      obtain rfl := Option.some.inj hs'
      exact hmem
  | start hop _ ih =>
    intro hc hs
    obtain ⟨hexec, hmem⟩ := ih hc (private_start h hs hop)
    exact ⟨.start hop hexec, hmem⟩
  | nil =>
    intro hc hs
    refine ⟨.nil, ?_⟩
    intro s' hs'
    obtain rfl := Option.some.inj hs'
    rfl
  | cons he₁ _ ih₁ ih₂ =>
    intro hc hs
    obtain ⟨hexec₁, hmem₁⟩ := ih₁ (hc _ mem_cons_self) hs
    obtain ⟨hexec₂, hmem₂⟩ :=
      ih₂ (fun o ho => hc o (mem_cons_of_mem _ ho)) (exec_private h he₁ hs _ rfl)
    exact ⟨.cons hexec₁ hexec₂, fun s' hs' => (hmem₂ s' hs').trans (hmem₁ _ rfl)⟩
  | halt _ ih =>
    intro hc hs
    exact ⟨.halt (ih (hc _ mem_cons_self) hs).1, fun s' hs' => by cases hs'⟩
  | @finish o vals hist s results m hop hstep hvals hm =>
    -- an open operation sees the escaped memory, and `r` is not in it
    intro hc hs
    have hesc := hs.escaped r hr
    constructor
    · have := Exec.finish (M := M) (R := R) (L := L) (s := s.put r obj) hop
        (by rw [State.put_view hesc]; exact hstep) hvals hm
      rw [State.put_overlay hesc, State.put_bind] at this
      exact this
    · intro s' hs'
      obtain rfl := Option.some.inj hs'
      rw [State.bind_mem]
      exact State.overlay_mem hesc m
  | @enter o vals hist s s' b args m log₁ log₂ res hstep hb hvals hm he₁ _ ih₁ ih₂ =>
    intro hc hs
    have hesc := hs.escaped r hr
    have hs₁ := private_enter hs hvals hm (b := b)
    obtain ⟨hexec₁, hmem₁⟩ :=
      ih₁ (fun o' ho' => hS.inner hc (by rw [hL.mem_iff.1 ho']; exact hb)) hs₁
    obtain ⟨hexec₂, hmem₂⟩ := ih₂ hc (exec_private h he₁ hs₁ _ rfl)
    constructor
    · rw [← State.put_bind, ← State.put_overlay hesc] at hexec₁
      exact .enter (by rw [State.put_view hesc]; exact hstep) hb hvals hm hexec₁ hexec₂
    · intro s'' hs''
      rw [hmem₂ s'' hs'', hmem₁ s' rfl, State.bind_mem]
      exact State.overlay_mem hesc m
  | @enterHalt o vals hist s b args m log hstep hb hvals hm he₁ ih =>
    intro hc hs
    have hesc := hs.escaped r hr
    have hs₁ := private_enter hs hvals hm (b := b)
    have hexec := (ih (fun o' ho' => hS.inner hc (by rw [hL.mem_iff.1 ho']; exact hb)) hs₁).1
    rw [← State.put_bind, ← State.put_overlay hesc] at hexec
    exact ⟨.enterHalt (by rw [State.put_view hesc]; exact hstep) hb hvals hm hexec,
      fun s' hs' => by cases hs'⟩

/-- A value that nothing in the code defines keeps its value. -/
theorem exec_env (hL : M.Arranged L) (hS : ∀ {o o'}, S o → M.blockOf o' ∈ (M.op o).blocks → S o')
    {v : ValueId}
    (hres : ∀ o, S o → v ∉ (M.op o).results)
    (hargs : ∀ o, S o → ∀ b ∈ (M.op o).blocks, v ∉ M.args b)
    (he : Exec M R L c s log res) :
    c.In S → ∀ s', res = some s' → s'.env v = s.env v := by
  induction he with
  | stop => intro _ s' hs'; cases hs'
  | @simple o s hop =>
    intro hc s' hs'
    obtain rfl := Option.some.inj hs'
    have hv := hres o hc
    cases hop : M.op o with
    | store value memref =>
      simp only [effect, hop, write]
      cases (s.env memref).root <;> rfl
    | assign rhs lhs scalarRhs =>
      simp only [effect, hop, write]
      cases (s.env lhs).root <;> rfl
    | terminator operands => simp only [effect, hop]; rfl
    | other operands results blocks => simp only [effect, hop]
    | _ =>
      rw [hop] at hv
      simp only [effect, hop]
      exact State.bind_env_of_notMem hv s _
  | start _ _ ih => exact fun hc s' hs' => ih hc s' hs'
  | nil =>
    intro _ s' hs'
    obtain rfl := Option.some.inj hs'
    rfl
  | cons _ _ ih₁ ih₂ =>
    intro hc s' hs'
    rw [ih₂ (fun o ho => hc o (mem_cons_of_mem _ ho)) s' hs', ih₁ (hc _ mem_cons_self) _ rfl]
  | halt _ _ => intro _ s' hs'; cases hs'
  | finish hop _ _ _ =>
    intro hc s' hs'
    obtain rfl := Option.some.inj hs'
    exact State.bind_env_of_notMem (hres _ hc) _ _
  | @enter o vals hist s s' b args m log₁ log₂ res hstep hb hvals hm _ _ ih₁ ih₂ =>
    intro hc s'' hs''
    rw [ih₂ hc s'' hs'', ih₁ (fun o' ho' => hS hc (by rw [hL.mem_iff.1 ho']; exact hb)) s' rfl]
    exact State.bind_env_of_notMem (hargs o hc b hb) _ _
  | enterHalt _ _ _ _ _ _ => intro _ s' hs'; cases hs'

/-! ## A write and what stands behind it -/

/-- What a write leaves in the memory it is made into. -/
def overwritten (R : Machine ι D) (w : ι) (addr x : Val ι D) (old : D → Val ι D) : D → Val ι D :=
  fun d => if R.covers w addr.data d then ⟨none, R.stored w x.data⟩ else old d

/-- **What a write into private memory does.** -/
theorem effect_write (h : M.NonEscaping a acc) (hw : w ∈ acc.writes) :
    M.driven w = false ∧ (M.op w).results = [] ∧
      ∃ addr ∈ (M.op w).operands, ∃ x ∈ (M.op w).operands,
      ∀ s : State ι D, Private M a s → M.effect R w s = ([], match (s.env addr).root with
        | none => s
        | some r => s.put r (overwritten R w (s.env addr) (s.env x) (s.mem r))) ∧
        ∀ r, (s.env addr).root = some r → IsLocal a r := by
  obtain ⟨addr, haddr, hop⟩ := h.writes w hw
  have hdep : ∀ (r : Root ι) (y : Val ι D), IsLocal a r →
      M.deposited R w r y = ⟨none, R.stored w y.data⟩ := by
    rintro _ y ⟨n, rfl⟩
    rw [deposited, if_pos h.scalar]
  have hwrite : ∀ (s : State ι D) (y : Val ι D), Private M a s →
      M.write R w (s.env addr) y s = match (s.env addr).root with
        | none => s
        | some r => s.put r (overwritten R w (s.env addr) y (s.mem r)) := by
    intro s y hs
    rw [write]
    cases hroot : (s.env addr).root with
    | none => rfl
    | some r =>
      simp only [hdep r y ((hs.env addr r hroot).2 haddr), State.escape_number]
      rfl
  rcases hop with ⟨value, hop⟩ | ⟨rhs, hop⟩
  · refine ⟨by simp [driven, hop], by simp [hop, Op.results], addr, by simp [hop,
      Op.operands], value,
      by simp [hop, Op.operands], fun s hs => ⟨?_, fun r hr => (hs.env addr r hr).2 haddr⟩⟩
    simp only [effect, hop, hwrite s _ hs]
  · refine ⟨by simp [driven, hop], by simp [hop, Op.results], addr, by simp [hop, Op.operands], rhs,
      by simp [hop, Op.operands], fun s hs => ⟨?_, fun r hr => (hs.env addr r hr).2 haddr⟩⟩
    simp only [effect, hop, hwrite s _ hs]
    rfl

/-- `v` is defined by none of the operations, nor by a block in them. -/
def NotDefined (M : Ir ι) (S : ι → Prop) (v : ValueId) : Prop :=
  ∀ o, S o → v ∉ (M.op o).results ∧ ∀ b ∈ (M.op o).blocks, v ∉ M.args b

variable {x : ι} {rest ops ops' mid post : List ι}

/-- The write run in front of `x`, and behind it. -/
theorem run_past_write (hL : M.Arranged L) (h : M.NonEscaping a acc) (hw : w ∈ acc.writes)
    (hS : Clear M a S)
    (hdef : ∀ v ∈ (M.op w).operands, NotDefined M S v) (hs : Private M a s) (hx : S x) :
    (∀ res, Exec M R L (.run x) s log res →
      Exec M R L (.run x) (M.effect R w s).2 log (res.map (fun s' => (M.effect R w s').2))) ∧
    ∀ res, Exec M R L (.run x) (M.effect R w s).2 log res →
      ∃ res', Exec M R L (.run x) s log res' ∧ res = res'.map (fun s' => (M.effect R w s').2) := by
  obtain ⟨hdriven, -, addr, haddr, val, hval, heff⟩ := effect_write (R := R) h hw
  have henv : ∀ {s₁ : State ι D} {res : Option (State ι D)} {v : ValueId}, v ∈ (M.op w).operands →
      Exec M R L (.run x) s₁ log res → ∀ s', res = some s' → s'.env v = s₁.env v :=
    fun hv he => exec_env hL hS.inner (fun o ho => (hdef _ hv o ho).1)
      (fun o ho => (hdef _ hv o ho).2) he hx
  have hs' := private_effect (R := R) h hs hdriven
  obtain ⟨hws, hlocal⟩ := heff s hs
  have hws₂ := congrArg Prod.snd hws
  simp only at hws₂
  rw [hws₂] at hs' ⊢
  cases hroot : (s.env addr).root with
  | none =>
    -- the address is undefined, and the write does nothing
    have hsame : ∀ res, Exec M R L (.run x) s log res →
        res.map (fun s' => (M.effect R w s').2) = res := by
      intro res he
      cases hres : res with
      | none => rfl
      | some s' =>
        have hp := exec_private h he hs s' hres
        have := congrArg Prod.snd (heff s' hp).1
        simp only [henv haddr he s' hres, hroot] at this
        rw [Option.map_some, this]
    constructor
    · intro res he
      rw [hsame res he]
      exact he
    · exact fun res he => ⟨res, he, (hsame res he).symm⟩
  | some r =>
    have hr := hlocal r hroot
    simp only [hroot] at hs'
    -- behind `x` the write leaves what it leaves in front of it
    have hbehind : ∀ s' : State ι D, Private M a s' → s'.env addr = s.env addr →
      s'.env val = s.env val →
        s'.mem r = s.mem r →
        (M.effect R w s').2 = s'.put r (overwritten R w (s.env addr) (s.env val) (s.mem r)) := by
      intro s' hp ha hv hm
      have := congrArg Prod.snd (heff s' hp).1
      simp only [ha, hv, hroot, hm] at this
      exact this
    constructor
    · intro res he
      obtain ⟨hexec, hmem⟩ := exec_frame hL h hS hr
        (overwritten R w (s.env addr) (s.env val) (s.mem r)) he hx hs
      cases hres : res with
      | none =>
        rw [hres] at hexec
        exact hexec
      | some s' =>
        rw [hres] at hexec
        rw [Option.map_some, hbehind s' (exec_private h he hs s' hres) (henv haddr he s' hres)
          (henv hval he s' hres)
          (hmem s' hres)]
        exact hexec
    · intro res he
      obtain ⟨hexec, hmem⟩ := exec_frame hL h hS hr (s.mem r) he hx hs'
      rw [State.put_put, State.put_self] at hexec
      refine ⟨_, hexec, ?_⟩
      cases hres : res with
      | none => rfl
      | some s' =>
        have hp := exec_private h hexec hs (s'.put r (s.mem r)) (by rw [hres]; rfl)
        have hobj := hmem s' hres
        rw [State.put_mem_self] at hobj
        rw [Option.map_some, Option.map_some,
          hbehind _ hp (henv haddr he s' hres) (henv hval he s' hres)
          (State.put_mem_self s' r _), State.put_put, ← hobj, State.put_self]

/-- What a run of the write does. -/
theorem run_write_iff (h : M.NonEscaping a acc) (hw : w ∈ acc.writes) (hs : Private M a s) :
    Exec M R L (.run w) s log res ↔ log = [] ∧ (res = none ∨ res = some (M.effect R w s).2) := by
  obtain ⟨hdriven, -, addr, -, val, -, heff⟩ := effect_write (R := R) h hw
  have hlog : (M.effect R w s).1 = [] := congrArg Prod.fst (heff s hs).1
  constructor
  · intro he
    cases he with
    | stop => exact ⟨rfl, Or.inl rfl⟩
    | simple _ => exact ⟨hlog, Or.inr rfl⟩
    | start hop _ =>
      rw [hdriven] at hop
      cases hop
  · rintro ⟨rfl, rfl | rfl⟩
    · exact .stop
    · have := Exec.simple (R := R) (L := L) (s := s) hdriven
      rw [hlog] at this
      exact this

/-- A write run first. -/
theorem exec_write_cons (h : M.NonEscaping a acc) (hw : w ∈ acc.writes) (hs : Private M a s)
    (he : Exec M R L (.seq rest) (M.effect R w s).2 log res) :
    Exec M R L (.seq (w :: rest)) s log res := by
  have hwrite := (run_write_iff (R := R) (L := L) h hw hs).2 ⟨rfl, Or.inr rfl⟩
  exact Exec.cons hwrite he

/-- **A write and the operation behind it may be swapped.** -/
theorem exec_swap (hL : M.Arranged L) (h : M.NonEscaping a acc) (hw : w ∈ acc.writes)
    (hS : Clear M a S)
    (hdef : ∀ v ∈ (M.op w).operands, NotDefined M S v) (hs : Private M a s) (hx : S x) :
    Exec M R L (.seq (w :: x :: rest)) s log res ↔
      Exec M R L (.seq (x :: w :: rest)) s log res := by
  constructor
  · intro he
    cases he with
    | stop => exact .stop
    | halt he =>
      obtain ⟨rfl, -⟩ := (run_write_iff h hw hs).1 he
      exact .stop
    | @cons _ _ _ s₁ log₁ log₂ _ he₁ he₂ =>
      obtain ⟨rfl, hres | hres⟩ := (run_write_iff h hw hs).1 he₁
      · cases hres
      · -- the write ran first; `x` is run in front of it
        obtain rfl := Option.some.inj hres
        cases he₂ with
        | stop => exact .stop
        | halt he₂ =>
          obtain ⟨res', he', hres'⟩ := (run_past_write hL h hw hS hdef hs hx).2 _ he₂
          cases res' with
          | some s' => cases hres'
          | none => exact .halt he'
        | cons he₂ he₃ =>
          obtain ⟨res', he', hres'⟩ := (run_past_write hL h hw hS hdef hs hx).2 _ he₂
          cases res' with
          | none => cases hres'
          | some s' =>
            obtain rfl := Option.some.inj hres'
            have hp := exec_private h he' hs s' rfl
            have hswapped := Exec.cons he' (exec_write_cons h hw hp he₃)
            exact hswapped
  · intro he
    cases he with
    | stop => exact .stop
    | halt he =>
      exact exec_write_cons h hw hs (.halt ((run_past_write hL h hw hS hdef hs hx).1 _ he))
    | @cons _ _ _ s₁ log₁ log₂ _ he₁ he₂ =>
      have hpast := (run_past_write hL h hw hS hdef hs hx).1 _ he₁
      have hp := exec_private h he₁ hs s₁ rfl
      cases he₂ with
      | stop => exact exec_write_cons h hw hs (.cons hpast .stop)
      | halt he₂ =>
        obtain ⟨rfl, -⟩ := (run_write_iff h hw hp).1 he₂
        exact exec_write_cons h hw hs (.cons hpast .stop)
      | cons he₂ he₃ =>
        obtain ⟨rfl, hres | hres⟩ := (run_write_iff h hw hp).1 he₂
        · cases hres
        · obtain rfl := Option.some.inj hres
          exact exec_write_cons h hw hs (.cons hpast he₃)

/-- The same first operation in front of code with the same runs. -/
theorem exec_cons_congr (h : M.NonEscaping a acc)
    (hops : ∀ {s : State ι D} {log res}, Private M a s →
      (Exec M R L (.seq ops) s log res ↔ Exec M R L (.seq ops') s log res)) (hs : Private M a s) :
    Exec M R L (.seq (x :: ops)) s log res ↔ Exec M R L (.seq (x :: ops')) s log res := by
  constructor
  · intro he
    cases he with
    | stop => exact .stop
    | halt he => exact .halt he
    | cons he₁ he₂ => exact .cons he₁ ((hops (exec_private h he₁ hs _ rfl)).1 he₂)
  · intro he
    cases he with
    | stop => exact .stop
    | halt he => exact .halt he
    | cons he₁ he₂ => exact .cons he₁ ((hops (exec_private h he₁ hs _ rfl)).2 he₂)

/-- The same operations in front. -/
theorem exec_append_congr (h : M.NonEscaping a acc) (pre : List ι)
    (hops : ∀ {s : State ι D} {log res}, Private M a s →
      (Exec M R L (.seq ops) s log res ↔ Exec M R L (.seq ops') s log res)) (hs : Private M a s) :
    Exec M R L (.seq (pre ++ ops)) s log res ↔ Exec M R L (.seq (pre ++ ops')) s log res := by
  induction pre generalizing s log res with
  | nil => exact hops hs
  | cons x pre ih => exact exec_cons_congr h (fun hs => ih hs) hs

/-- The operations a write is moved past do not access its memory, and define nothing that it
uses. -/
def Passable (M : Ir ι) (a w : ι) (x : ι) : Prop :=
  Clear M a (fun o => M.findAncestorOpInBlock (M.blockOf w) o = some x) ∧
    M.blockOf x = M.blockOf w ∧
    ∀ v ∈ (M.op w).operands, NotDefined M (fun o => M.findAncestorOpInBlock (M.blockOf w) o =
      some x) v

/-- **A write moved down a list of operations.** -/
theorem exec_move (hL : M.Arranged L) (h : M.NonEscaping a acc) (hw : w ∈ acc.writes)
    (hmid : ∀ x ∈ mid, M.Passable a w x) (hs : Private M a s) :
    Exec M R L (.seq (w :: (mid ++ post))) s log res ↔
      Exec M R L (.seq (mid ++ w :: post)) s log res := by
  induction mid generalizing s log res with
  | nil => exact Iff.rfl
  | cons x mid ih =>
    obtain ⟨hclear, hblock, hdef⟩ := hmid x mem_cons_self
    have hself : M.findAncestorOpInBlock (M.blockOf w) x = some x := by
      rw [← hblock]
      exact findAncestorOpInBlock_self x
    rw [cons_append, cons_append, exec_swap hL h hw hclear hdef hs hself]
    exact exec_cons_congr h (fun hs => ih (fun y hy => hmid y (mem_cons_of_mem x hy)) hs) hs

/-! ## Layouts -/

/-- Code runs the same in a layout whose blocks run the same. -/
theorem exec_relayout (h : M.NonEscaping a acc)
    (hblocks : ∀ b {s : State ι D} {log res}, Private M a s → Exec M R L' (.seq (L b)) s log res →
      Exec M R L' (.seq (L' b)) s log res)
    (he : Exec M R L c s log res) : Private M a s → Exec M R L' c s log res := by
  induction he with
  | stop => exact fun _ => .stop
  | simple hop => exact fun _ => .simple hop
  | start hop _ ih => exact fun hs => .start hop (ih (private_start h hs hop))
  | nil => exact fun _ => .nil
  | cons he₁ _ ih₁ ih₂ => exact fun hs => .cons (ih₁ hs) (ih₂ (exec_private h he₁ hs _ rfl))
  | halt _ ih => exact fun hs => .halt (ih hs)
  | finish hop hstep hvals hm => exact fun _ => .finish hop hstep hvals hm
  | @enter _ _ _ _ _ b _ _ _ _ _ hstep hb hvals hm he₁ _ ih₁ ih₂ =>
    intro hs
    have hs₁ := private_enter hs hvals hm (b := b)
    exact .enter hstep hb hvals hm (hblocks _ hs₁ (ih₁ hs₁)) (ih₂ (exec_private h he₁ hs₁ _ rfl))
  | @enterHalt _ _ _ _ b _ _ _ hstep hb hvals hm _ ih =>
    intro hs
    have hs₁ := private_enter hs hvals hm (b := b)
    exact .enterHalt hstep hb hvals hm (hblocks _ hs₁ (ih hs₁))

/-- **A write moved down its block changes no run.** -/
theorem exec_moveAfter (hL : M.Arranged L) (h : M.NonEscaping a acc) {w last : ι}
    (hw : w ∈ acc.writes)
    {pre : List ι} (hmove : M.MovesDown L w last pre mid post) (hmid : ∀ x ∈ mid, M.Passable a w x)
    (hs : Private M a s) :
    Exec M R L c s log res ↔ Exec M R (M.moveAfter L w last) c s log res := by
  have hblocks : ∀ K : Layout ι, M.Arranged K → ∀ b {s : State ι D} {log res}, Private M a s →
      (Exec M R K (.seq (L b)) s log res ↔
        Exec M R K (.seq (M.moveAfter L w last b)) s log res) := by
    intro K hK b s log res hs
    by_cases hb : b = M.blockOf w
    · rw [hb, hmove.before, hmove.after]
      exact exec_append_congr h pre (fun hs => exec_move hK h hw hmid hs) hs
    · rw [moveAfter_other hb]
  constructor
  · exact fun he => exec_relayout h
      (fun b _ _ _ hs => (hblocks _ (moveAfter_arranged hL hmove) b hs).1) he hs
  · exact fun he => exec_relayout h (fun b _ _ _ hs => (hblocks _ hL b hs).2) he hs

end Ir

end SinkStores
