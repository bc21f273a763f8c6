/-
# Where the walk is

What the walk from a variable says about an address holds of every location the address
names: the variable, its element, the scalar, or storage apart from the scalar, unless the
address strays.
-/
import DaceFortran.SpecializeGlobals.SpecializeGlobals

namespace SpecializeGlobals

open GlobalReads (Location Root Memory Step)

/-! ## Storage apart -/

/-- Another variable, or another step on the way. -/
def Apart (l t : Location) : Prop :=
  l.root ≠ t.root ∨ ∃ (n : ℕ) (x y : Step), l.path[n]? = some x ∧ t.path[n]? = some y ∧ x ≠ y

theorem Apart.not_covers {l t : Location} (h : Apart l t) : ¬ l.Covers t := by
  rintro ⟨hr, hp⟩
  rcases h with h | ⟨n, x, y, hx, hy, hne⟩
  · exact h hr
  · obtain ⟨q, hq⟩ := hp
    have hlt : n < l.path.length := by
      rw [List.getElem?_eq_some_iff] at hx
      exact hx.1
    rw [← hq, List.getElem?_append_left hlt, hx] at hy
    exact hne (Option.some.inj hy)

theorem Apart.append {l t : Location} (h : Apart l t) (q : List Step) :
    Apart ⟨l.root, l.path ++ q⟩ t := by
  rcases h with h | ⟨n, x, y, hx, hy, hne⟩
  · exact Or.inl h
  · refine Or.inr ⟨n, x, y, ?_, hy, hne⟩
    have hlt : n < l.path.length := by
      rw [List.getElem?_eq_some_iff] at hx
      exact hx.1
    show (l.path ++ q)[n]? = some x
    rw [List.getElem?_append_left hlt, hx]

/-! ## The scalar -/

/-- Where the scalar is. -/
def scalarAt (W : World) (sym : Name) (path : ScalarPath) : Location :=
  ⟨.sym sym, (path.element.map fun e => Step.element [e - W.lower sym]).toList ++
    (path.component.map Step.component).toList⟩

/-- The subscripts are those of the array at the address. -/
def Subscripts.Fits (s : Subscripts) (W : World) (sym : Name) (env : Env) (a : Address) : Prop :=
  s.known = true →
    match s.lower with
    | none => bare a = some sym
    | some lo => (∃ n, shapeOf env a = some [(lo, n)]) ∧ s.shift = W.lower sym - lo

/-- What a place says about a location the address names. -/
def PlaceSpec (W : World) (env : Env) (sym : Name) (path : ScalarPath) (a : Address) (l : Location)
    (strays : Bool) : Place → Prop
  | .atVariable s =>
    l = ⟨.sym sym, []⟩ ∧ s.Fits W sym env a ∧ ¬ (path.element = none ∧ path.component = none)
  | .element =>
    ∃ e, path.element = some e ∧ path.component ≠ none ∧
      l = ⟨.sym sym, [.element [e - W.lower sym]]⟩
  | .target => l = scalarAt W sym path
  | .aside => strays = false → Apart l (scalarAt W sym path)
  | .runtime _ | .blocked => True

section Walk

variable {W : World} {args : Args} {env : Env} {sym : Name} {path : ScalarPath}

variable {shape : Option Shape} {s : Subscripts} {a : Address}

theorem declaredLowerBound_eq {lb : ℤ} (h : declaredLowerBound shape = some lb) :
    ∃ n, shape = some [(.lit lb, n)] := by
  unfold declaredLowerBound at h
  split at h
  · rename_i n
    cases h
    exact ⟨n, rfl⟩
  · cases h

variable {m : Address} {extra shaped : Bool} {l : Location} {strays : Bool}

/-- A declare numbers the elements anew; the variable's own one has its lower bound. -/
theorem Subscripts.Fits.below (hs : s.Fits W sym env m)
    (hown : ∀ v i n, bare m = some v → shape = some [(i, n)] → i.eval env = W.lower v) :
    (s.below shape).Fits W sym env (.declare m shape) := by
  unfold Subscripts.Fits Subscripts.below
  intro hk
  split at hk
  · rename_i lb hknown hlb
    obtain ⟨n, hshape⟩ := declaredLowerBound_eq hlb
    have hdims : shapeOf env (.declare m shape) = some [(lb, n.eval env)] := by
      rw [hshape]
      rfl
    have hs' := hs hknown
    dsimp only
    refine ⟨⟨n.eval env, hdims⟩, ?_⟩
    cases hlo : s.lower with
    -- the variable's own declare
    | none =>
      rw [hlo] at hs'
      have : lb = W.lower sym := hown sym (.lit lb) n hs' hshape
      show (0 : ℤ) = W.lower sym - lb
      omega
    | some lo =>
      rw [hlo] at hs'
      obtain ⟨-, hshift⟩ := hs'
      show s.shift + lo - lb = W.lower sym - lb
      omega
  · cases hk

variable {c : Option Name} {subs : List Subscript}

theorem constantElement_eq {extra : Bool} {k : ℤ}
    (h : constantElement c subs extra = some k) : c = none ∧ subs = [.scalar (.lit k)] := by
  unfold constantElement at h
  split at h
  · cases h
    exact ⟨rfl, rfl⟩
  · cases h

/-- The only subscript of an array of rank one takes the element it says. -/
theorem takesOffset_literal {lo n k off : ℤ}
    (h : TakesOffset env [(lo, n)] [.scalar (.lit k)] off) :
    off = k - lo := by
  obtain ⟨i, rest, hi, hrest, hoff⟩ := h
  have hi' : i + lo = k := hi
  have hrest' : rest = 0 := hrest
  rw [hoff, hrest']
  omega

/-- A literal subscript that is known in the variable's numbering names the element it says. -/
theorem designate_element (hs : s.Fits W sym env m)
    {k : ℤ}
    (hk : s.of (constantElement c subs extra) = some k)
    (hn : Names W args env (.designate m c subs extra shaped) l strays)
    (hm : ∀ base strays, Names W args env m base strays → base = ⟨.sym sym, []⟩) :
    l = ⟨.sym sym, [.element [k - W.lower sym]]⟩ := by
  unfold Subscripts.of at hk
  split at hk
  · rename_i k' lo hc hknown hlo
    obtain ⟨rfl, rfl⟩ := constantElement_eq hc
    obtain ⟨base, before, hb, hl⟩ := hn
    obtain rfl := hm base before hb
    have hs' := hs hknown
    rw [hlo] at hs'
    obtain ⟨⟨n, hdims⟩, hshift⟩ := hs'
    obtain ⟨off, hoff, rfl, -⟩ := hl
    have hkk : k' + s.shift = k := Option.some.inj hk
    have hoff' := takesOffset_literal (hoff _ hdims)
    rw [show off = k - W.lower sym by omega]
    rfl
  · cases hk

/-- A component step goes to the scalar or to storage apart from it. -/
theorem componentStep_spec (base : Location)
    (hn : Names W args env (.designate m c subs extra shaped) l strays)
    (hbase : ∀ b strays, Names W args env m b strays → b = base)
    (hscalar : ∀ x, path.component = some x →
      scalarAt W sym path = ⟨base.root, base.path ++ [.component x]⟩)
    (hcomp : path.component ≠ none) :
    PlaceSpec W env sym path (.designate m c subs extra shaped) l strays
      (componentStep path c subs extra shaped) := by
  unfold componentStep
  split
  · rename_i c'
    obtain ⟨b, before, hb, rfl, -⟩ := hn
    rw [hbase b before hb]
    split_ifs with hc
    · exact (hscalar c' hc).symm
    · intro _
      obtain ⟨x, hx⟩ := Option.ne_none_iff_exists'.1 hcomp
      refine Or.inr ⟨base.path.length, .component c', .component x, by simp, ?_, ?_⟩
      · rw [hscalar x hx]
        simp
      · intro he
        cases he
        exact hc hx
  · trivial

/-- A part of storage apart is apart, unless it strays. -/
theorem designate_apart
    {t l : Location} (hn : Names W args env (.designate m c subs extra shaped) l false)
    (hm : ∀ base, Names W args env m base false → Apart base t) : Apart l t := by
  obtain ⟨base, before, hb, hl⟩ := hn
  split at hl
  · obtain ⟨rfl, rfl⟩ := hl
    exact (hm base hb).append _
  · obtain ⟨off, rfl, rfl⟩ := hl
    exact (hm base hb).append _
  · obtain ⟨off, -, -, hstrays⟩ := hl
    cases hstrays
  · obtain ⟨off, -, rfl, rfl⟩ := hl
    exact (hm base hb).append _

theorem readDeeper_spec (d : ℕ) :
    PlaceSpec W env sym path a l strays (readDeeper d) := by
  unfold readDeeper
  split <;> trivial

/-- **The walk is right about every location an address names**, where the arguments hold what is
apart from the scalar. -/
theorem walk_spec (hargs : ∀ n l, args n l false → Apart l (scalarAt W sym path))
    (hn : Names W args env a l strays) :
    PlaceSpec W env sym path a l strays (walk sym path a) := by
  -- on the chain, from the variable on
  induction a generalizing l strays with
  | addrOf s =>
    obtain ⟨hl, -⟩ := hn
    unfold walk
    split_ifs with hs hp
    · rw [hl, hs]
      simp [PlaceSpec, scalarAt, hp.1, hp.2]
    · rw [hl, hs]
      exact ⟨rfl, fun _ => rfl, hp⟩
    · intro _
      left
      rw [hl]
      intro he
      exact hs (Root.sym.inj he)
  | arg n =>
    intro h
    subst h
    exact hargs n l hn
  | pointer n =>
    intro h
    rw [hn.2] at h
    cases h
  | declare m shape ih =>
    have hspec := ih hn.1
    unfold walk
    cases hw : walk sym path m with
    | atVariable s =>
      rw [hw] at hspec
      exact ⟨hspec.1, hspec.2.1.below hn.2, hspec.2.2⟩
    | runtime d => exact readDeeper_spec d
    | element =>
      rw [hw] at hspec
      exact hspec
    | target =>
      rw [hw] at hspec
      exact hspec
    | aside =>
      rw [hw] at hspec
      exact hspec
    | blocked => trivial
  | convert m ih =>
    have hspec := ih hn
    unfold walk
    cases hw : walk sym path m with
    | runtime d => exact readDeeper_spec d
    | atVariable s =>
      rw [hw] at hspec
      exact hspec
    | element =>
      rw [hw] at hspec
      exact hspec
    | target =>
      rw [hw] at hspec
      exact hspec
    | aside =>
      rw [hw] at hspec
      exact hspec
    | blocked => trivial
  | derived m ih =>
    have hspec := ih hn
    unfold walk
    split_ifs with hw
    · rw [hw] at hspec
      exact hspec
    · trivial
  | designate m c subs extra shaped ih =>
    obtain ⟨b, before, hb, -⟩ := id hn
    have hspec := ih hb
    unfold walk
    cases hw : walk sym path m with
    | atVariable s =>
      rw [hw] at hspec
      obtain ⟨-, hs, hpath⟩ := hspec
      have hm : ∀ b strays, Names W args env m b strays → b = ⟨.sym sym, []⟩ := by
        intro b' strays' hb'
        have := ih hb'
        rw [hw] at this
        exact this.1
      simp only
      cases he : path.element with
      | none =>
        have hcomp : path.component ≠ none := fun h => hpath ⟨he, h⟩
        refine componentStep_spec ⟨.sym sym, []⟩ hn hm ?_ hcomp
        intro x hx
        simp [scalarAt, he, hx]
      | some e =>
        simp only
        cases hk : s.of (constantElement c subs extra) with
        | none => trivial
        | some k =>
          have hl := designate_element hs hk hn hm
          simp only
          split_ifs with hke hcomp
          · rw [hl, hke]
            simp [PlaceSpec, scalarAt, he, hcomp]
          · exact ⟨e, he, hcomp, by rw [hl, hke]⟩
          -- another element of the variable's own array
          · intro _
            rw [hl]
            refine Or.inr ⟨0, .element [k - W.lower sym], .element [e - W.lower sym], rfl, ?_, ?_⟩
            · simp [scalarAt, he]
            · intro heq
              simp only [Step.element.injEq, List.cons.injEq, and_true] at heq
              exact hke (by omega)
    | element =>
      rw [hw] at hspec
      obtain ⟨e, he, hcomp, -⟩ := hspec
      refine componentStep_spec ⟨.sym sym, [.element [e - W.lower sym]]⟩ hn ?_ ?_ hcomp
      · intro b' strays' hb'
        have := ih hb'
        rw [hw] at this
        obtain ⟨e', he', -, hbe⟩ := this
        rw [he] at he'
        cases he'
        exact hbe
      · intro x hx
        simp [scalarAt, he, hx]
    | aside =>
      intro hstrays
      subst hstrays
      refine designate_apart hn ?_
      intro base hbase
      have := ih hbase
      rw [hw] at this
      exact this rfl
    | runtime d => exact readDeeper_spec d
    | target => trivial
    | blocked => trivial

end Walk

end SpecializeGlobals
