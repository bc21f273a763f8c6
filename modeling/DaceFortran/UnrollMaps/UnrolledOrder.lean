/-
# The order the unrolled map keeps

The steps of the rewritten state (`Step`) follow those of the state before; what ran before a node
of the scope, or after it, still does exactly where the edges that feed the scope and drain it
carry that order themselves (`orderKept_iff`).
-/
import DaceFortran.UnrollMaps.UnrollSmallMaps
import Mathlib.Data.List.Basic

open List Option

namespace UnrollMaps

open Relation

namespace MapScope

variable {M : MapScope}

/-! ## The edges of the rewritten state -/

/-- An edge outside of the map. -/
def Outside (M : MapScope) (p q : ℕ) : Prop := Adj M.edges (.outer p) (.outer q)

/-- An edge inside its scope. -/
def Inside (M : MapScope) (m n : ℕ) : Prop := Adj M.edges (.inner m) (.inner n)

/-- The node outside is the source of what enters the scope at the node inside. -/
def Feeds (M : MapScope) (x m : ℕ) : Prop :=
  ∃ e ∈ M.edges, e.src = .entry ∧ e.dst = .inner m
    ∧ (e.memlet = none ∧ ((∃ p ∈ M.before, p.src = .outer x)
        ∨ M.before = [] ∧ ∃ s ∈ M.outerScope, s.1 = x)
      ∨ e.memlet ≠ none ∧ ∃ c f, e.srcConn = some (.out c) ∧ M.ins c = some f ∧ f.src = .outer x)

/-- The node outside receives what leaves the scope at the node inside. -/
def Drains (M : MapScope) (m x : ℕ) : Prop :=
  ∃ e ∈ M.edges, e.src = .inner m ∧ e.dst = .exit
    ∧ (e.memlet = none ∧ ((∃ q ∈ M.after, q.dst = .outer x)
        ∨ M.after = [] ∧ ∃ s ∈ M.outerScope, s.2 = x)
      ∨ e.memlet ≠ none ∧ ∃ c f, e.dstConn = some (.inp c) ∧ M.outs c = some f ∧ f.dst = .outer x)

/-- A step of the rewritten state. -/
inductive Step (M : MapScope) : Unrolled → Unrolled → Prop
  | outside {p q} (h : M.Outside p q) : Step M (.outer p) (.outer q)
  | feeds {x v m} (hv : v ∈ M.performed) (h : M.Feeds x m) : Step M (.outer x) (.copy v m)
  | inside {v m n} (hv : v ∈ M.performed) (h : M.Inside m n) : Step M (.copy v m) (.copy v n)
  | drains {v m x} (hv : v ∈ M.performed) (h : M.Drains m x) : Step M (.copy v m) (.outer x)

variable {u : Unrolled} {e : Edge Node}

theorem outside_eq_some {n : Node} (h : MapScope.outside n = some u) :
    ∃ k, n = .outer k ∧ u = .outer k := by
  cases n <;> cases h
  exact ⟨_, rfl, rfl⟩

/-- Where an edge of the rewritten state comes from. -/
inductive FromEdge (M : MapScope) (e' : Edge Unrolled) : Prop
  | outside {e p q} (he : e ∈ M.edges) (hsrc : e.src = .outer p) (hdst : e.dst = .outer q)
    (hs : e'.src = .outer p) (hd : e'.dst = .outer q)
  | inside {v e a b} (hv : v ∈ M.performed) (he : e ∈ M.edges) (hsrc : e.src = .inner a)
    (hdst : e.dst = .inner b) (hs : e'.src = .copy v a) (hd : e'.dst = .copy v b)
    (hout : e'.srcConn = e.srcConn) (hin : e'.dstConn = e.dstConn)
    (hmem : e'.memlet = e.memlet.map (M.memletOf v))
  | fed {v e x b} (hv : v ∈ M.performed) (he : e ∈ M.edges) (hdst : e.dst = .inner b)
    (hs : e'.src = .outer x) (hd : e'.dst = .copy v b) (hfeeds : M.Feeds x b)
    (hin : e'.memlet ≠ none → e'.dstConn = e.dstConn) (hmem : e'.memlet =
      e.memlet.map (M.memletOf v))
  | drained {v e a x} (hv : v ∈ M.performed) (he : e ∈ M.edges) (hsrc : e.src = .inner a)
    (hs : e'.src = .copy v a) (hd : e'.dst = .outer x) (hdrains : M.Drains a x)
    (hout : e'.memlet ≠ none → e'.srcConn = e.srcConn)
    (hmem : e'.memlet = e.memlet.map (M.memletOf v))

variable {e' : Edge Unrolled} {v : List ℤ}

theorem fromEdge_entryEdge (hv : v ∈ M.performed) (he : e ∈ M.edges)
    (h : e' ∈ M.entryEdge v e) : M.FromEdge e' := by
  unfold entryEdge at h
  split at h
  · rename_i b hsrc hdst
    split at h
    · rename_i hmem
      obtain h | h := mem_append.1 h
      · obtain ⟨p, hp, hmap⟩ := mem_filterMap.1 h
        obtain ⟨u, hu, rfl⟩ := map_eq_some_iff.1 hmap
        obtain ⟨k, hk, rfl⟩ := outside_eq_some hu
        exact .fed hv he hdst rfl rfl ⟨e, he, hsrc, hdst, .inl ⟨hmem, .inl ⟨p, hp, hk⟩⟩⟩
          (fun h' => absurd rfl h') (by rw [hmem]; rfl)
      · split at h
        · rename_i hbefore
          obtain ⟨s, hs, rfl⟩ := mem_map.1 h
          exact .fed hv he hdst rfl rfl
            ⟨e, he, hsrc, hdst, .inl ⟨hmem, .inr ⟨hbefore, s, mem_toList.1 hs, rfl⟩⟩⟩
            (fun h' => absurd rfl h') (by rw [hmem]; rfl)
        · cases h
    · rename_i m hmem
      split at h
      · rename_i x hconn
        obtain ⟨f, hf, hmap⟩ := bind_eq_some_iff.1 (mem_toList.1 h)
        obtain ⟨u, hu, rfl⟩ := map_eq_some_iff.1 hmap
        obtain ⟨k, hk, rfl⟩ := outside_eq_some hu
        exact .fed hv he hdst rfl rfl
          ⟨e, he, hsrc, hdst, .inr ⟨by simp [hmem], x, f, hconn, hf, hk⟩⟩
          (fun _ => rfl) (by rw [hmem]; rfl)
      · cases h
  · cases h

theorem fromEdge_exitEdge (hv : v ∈ M.performed) (he : e ∈ M.edges)
    (h : e' ∈ M.exitEdge v e) : M.FromEdge e' := by
  unfold exitEdge at h
  split at h
  · rename_i a hsrc hdst
    split at h
    · rename_i hmem
      obtain h | h := mem_append.1 h
      · obtain ⟨q, hq, hmap⟩ := mem_filterMap.1 h
        obtain ⟨u, hu, rfl⟩ := map_eq_some_iff.1 hmap
        obtain ⟨k, hk, rfl⟩ := outside_eq_some hu
        exact .drained hv he hsrc rfl rfl ⟨e, he, hsrc, hdst, .inl ⟨hmem, .inl ⟨q, hq, hk⟩⟩⟩
          (fun h' => absurd rfl h') (by rw [hmem]; rfl)
      · split at h
        · rename_i hafter
          obtain ⟨s, hs, rfl⟩ := mem_map.1 h
          exact .drained hv he hsrc rfl rfl
            ⟨e, he, hsrc, hdst, .inl ⟨hmem, .inr ⟨hafter, s, mem_toList.1 hs, rfl⟩⟩⟩
            (fun h' => absurd rfl h') (by rw [hmem]; rfl)
        · cases h
    · rename_i m hmem
      split at h
      · rename_i x hconn
        obtain ⟨f, hf, hmap⟩ := bind_eq_some_iff.1 (mem_toList.1 h)
        obtain ⟨u, hu, rfl⟩ := map_eq_some_iff.1 hmap
        obtain ⟨k, hk, rfl⟩ := outside_eq_some hu
        exact .drained hv he hsrc rfl rfl
          ⟨e, he, hsrc, hdst, .inr ⟨by simp [hmem], x, f, hconn, hf, hk⟩⟩
          (fun _ => rfl) (by rw [hmem]; rfl)
      · cases h
  · cases h

theorem fromEdge_of_mem (h : e' ∈ M.unroll) : M.FromEdge e' := by
  obtain h | h := mem_append.1 h
  · obtain ⟨e, he, h⟩ := mem_flatMap.1 h
    unfold outsideEdge at h
    split at h
    · rename_i a b hsrc hdst
      obtain rfl := mem_singleton.1 h
      exact .outside he hsrc hdst rfl rfl
    · cases h
  · obtain ⟨v, hv, h⟩ := mem_flatMap.1 h
    obtain h | h := mem_append.1 h
    · obtain h | h := mem_append.1 h
      · obtain ⟨e, he, h⟩ := mem_flatMap.1 h
        unfold insideEdge at h
        split at h
        · rename_i a b hsrc hdst
          obtain rfl := mem_singleton.1 h
          exact .inside hv he hsrc hdst rfl rfl rfl rfl rfl
        · cases h
      · obtain ⟨e, he, h⟩ := mem_flatMap.1 h
        exact fromEdge_entryEdge hv he h
    · obtain ⟨e, he, h⟩ := mem_flatMap.1 h
      exact fromEdge_exitEdge hv he h

theorem adj_of_entryEdge (hv : v ∈ M.performed) (he : e ∈ M.edges)
    (h : e' ∈ M.entryEdge v e) : e' ∈ M.unroll :=
  mem_append_right _ (mem_flatMap.2 ⟨v, hv, mem_append_left _
    (mem_append_right _ (mem_flatMap.2 ⟨e, he, h⟩))⟩)

theorem adj_of_exitEdge (hv : v ∈ M.performed) (he : e ∈ M.edges)
    (h : e' ∈ M.exitEdge v e) : e' ∈ M.unroll :=
  mem_append_right _ (mem_flatMap.2 ⟨v, hv, mem_append_right _
    (mem_flatMap.2 ⟨e, he, h⟩)⟩)

/-- The edges of the rewritten state. -/
theorem adj_unroll (a b : Unrolled) : Adj M.unroll a b ↔ M.Step a b := by
  constructor
  -- every edge of the rewritten state comes from one of the four kinds of steps
  · rintro ⟨e', he', rfl, rfl⟩
    cases fromEdge_of_mem he' with
    | outside he hsrc hdst hs hd =>
      rw [hs, hd]
      exact .outside ⟨_, he, hsrc, hdst⟩
    | inside hv he hsrc hdst hs hd =>
      rw [hs, hd]
      exact .inside hv ⟨_, he, hsrc, hdst⟩
    | fed hv _ _ hs hd hfeeds =>
      rw [hs, hd]
      exact .feeds hv hfeeds
    | drained hv _ _ hs hd hdrains =>
      rw [hs, hd]
      exact .drains hv hdrains
  · intro h
    cases h with
    | @outside p q h =>
      obtain ⟨e, he, hsrc, hdst⟩ := h
      refine ⟨⟨.outer p, e.srcConn, .outer q, e.dstConn, e.memlet⟩,
        mem_append_left _ (mem_flatMap.2 ⟨e, he, ?_⟩), rfl, rfl⟩
      rw [outsideEdge, hsrc, hdst]
      exact mem_singleton.2 rfl
    | @inside v m n hv h =>
      obtain ⟨e, he, hsrc, hdst⟩ := h
      refine ⟨⟨.copy v m, e.srcConn, .copy v n, e.dstConn, e.memlet.map (M.memletOf v)⟩,
        mem_append_right _ (mem_flatMap.2 ⟨v, hv, mem_append_left _
          (mem_append_left _ (mem_flatMap.2 ⟨e, he, ?_⟩))⟩), rfl, rfl⟩
      rw [insideEdge, hsrc, hdst]
      exact mem_singleton.2 rfl
    | @feeds x v m hv h =>
      obtain ⟨e, he, hsrc, hdst,
        ⟨hmem, ⟨p, hp, hpx⟩ | ⟨hbefore, s, hs, rfl⟩⟩ | ⟨hmem, c, f, hc, hf, hfx⟩⟩ := h
      · refine ⟨⟨.outer x, p.srcConn, .copy v m, none, none⟩, adj_of_entryEdge hv he ?_, rfl, rfl⟩
        rw [entryEdge, hsrc, hdst, hmem]
        refine mem_append_left _ (mem_filterMap.2 ⟨p, hp, ?_⟩)
        rw [hpx]
        rfl
      · refine ⟨⟨.outer s.1, none, .copy v m, none, none⟩, adj_of_entryEdge hv he ?_, rfl, rfl⟩
        rw [entryEdge, hsrc, hdst, hmem]
        refine mem_append_right _ ?_
        rw [if_pos hbefore]
        exact mem_map.2 ⟨s, mem_toList.2 hs, rfl⟩
      · obtain ⟨w, hw⟩ := ne_none_iff_exists'.1 hmem
        refine ⟨⟨.outer x, f.srcConn, .copy v m, e.dstConn, some (M.memletOf v w)⟩,
          adj_of_entryEdge hv he ?_, rfl, rfl⟩
        rw [entryEdge, hsrc, hdst, hw, hc]
        refine mem_toList.2 ?_
        show (M.ins c).bind _ = _
        rw [hf, bind_some, hfx]
        rfl
    | @drains v m x hv h =>
      obtain ⟨e, he, hsrc, hdst,
        ⟨hmem, ⟨q, hq, hqx⟩ | ⟨hafter, s, hs, rfl⟩⟩ | ⟨hmem, c, f, hc, hf, hfx⟩⟩ := h
      · refine ⟨⟨.copy v m, none, .outer x, q.dstConn, none⟩, adj_of_exitEdge hv he ?_, rfl, rfl⟩
        rw [exitEdge, hsrc, hdst, hmem]
        refine mem_append_left _ (mem_filterMap.2 ⟨q, hq, ?_⟩)
        rw [hqx]
        rfl
      · refine ⟨⟨.copy v m, none, .outer s.2, none, none⟩, adj_of_exitEdge hv he ?_, rfl, rfl⟩
        rw [exitEdge, hsrc, hdst, hmem]
        refine mem_append_right _ ?_
        rw [if_pos hafter]
        exact mem_map.2 ⟨s, mem_toList.2 hs, rfl⟩
      · obtain ⟨w, hw⟩ := ne_none_iff_exists'.1 hmem
        refine ⟨⟨.copy v m, e.srcConn, .outer x, f.dstConn, some (M.memletOf v w)⟩,
          adj_of_exitEdge hv he ?_, rfl, rfl⟩
        rw [exitEdge, hsrc, hdst, hw, hc]
        refine mem_toList.2 ?_
        show (M.outs c).bind _ = _
        rw [hf, bind_some, hfx]
        rfl

/-- What enters the map comes from outside. -/
theorem source_of_entry (hvalid : M.Valid) {f : Edge Node} (hf : f ∈ M.edges)
    (hdst : f.dst = .entry) :
    ∃ k, f.src = .outer k := by
  cases hsrc : f.src with
  | outer k => exact ⟨k, rfl⟩
  | entry =>
    obtain ⟨j, hj⟩ := hvalid.entryDst f hf hsrc
    rw [hdst] at hj
    cases hj
  | inner k =>
    obtain ⟨j, hj⟩ | hj := hvalid.innerDst f hf k hsrc <;> (rw [hdst] at hj; cases hj)
  | exit =>
    obtain ⟨j, hj⟩ := hvalid.exitDst f hf hsrc
    rw [hdst] at hj
    cases hj

/-! ## Order -/

/-- Every pair of nodes that was ordered still is, a node of the scope standing for each of its
copies. -/
structure OrderKept (M : MapScope) : Prop where
  around : ∀ p q, TransGen (Adj M.edges) (.outer p) (.outer q) →
    TransGen (Adj M.unroll) (.outer p) (.outer q)
  into : ∀ v ∈ M.performed, ∀ p n, TransGen (Adj M.edges) (.outer p) (.inner n) →
    TransGen (Adj M.unroll) (.outer p) (.copy v n)
  out : ∀ v ∈ M.performed, ∀ n q, TransGen (Adj M.edges) (.inner n) (.outer q) →
    TransGen (Adj M.unroll) (.copy v n) (.outer q)
  within : ∀ v ∈ M.performed, ∀ m n, TransGen (Adj M.edges) (.inner m) (.inner n) →
    TransGen (Adj M.unroll) (.copy v m) (.copy v n)

/-- What the order through the map rests on: each node before the entry is linked, by nodes outside
and then inside, to each node the entry leads to; likewise behind; and a map without iterations
orders nothing that is not ordered outside. -/
structure OrderPassed (M : MapScope) : Prop where
  fed : M.performed ≠ [] → ∀ p n, Adj M.edges (.outer p) .entry → Adj M.edges .entry (.inner n) →
    ∃ x m, ReflTransGen M.Outside p x ∧ M.Feeds x m ∧ ReflTransGen M.Inside m n
  drained : M.performed ≠ [] → ∀ n q, Adj M.edges (.inner n) .exit → Adj M.edges .exit (.outer q) →
    ∃ m x, ReflTransGen M.Inside n m ∧ M.Drains m x ∧ ReflTransGen M.Outside x q
  empty : M.performed = [] → ∀ p q, Adj M.edges (.outer p) .entry → Adj M.edges .exit (.outer q) →
    TransGen M.Outside p q

variable {y z : Node} {p q m n x : ℕ} {a b : Unrolled}

theorem outside_path (h : ReflTransGen M.Outside p q) :
    ReflTransGen (Adj M.unroll) (.outer p) (.outer q) := by
  induction h with
  | refl => exact .refl
  | tail _ hstep ih => exact ih.tail ((adj_unroll _ _).2 (.outside hstep))

theorem inside_path (hv : v ∈ M.performed) (h : ReflTransGen M.Inside m n) :
    ReflTransGen (Adj M.unroll) (.copy v m) (.copy v n) := by
  induction h with
  | refl => exact .refl
  | tail _ hstep ih => exact ih.tail ((adj_unroll _ _).2 (.inside hv hstep))

/-! ## The condition is enough -/

/-- How far a path of the state before has come in the rewritten state, in iteration `v`. -/
def At (M : MapScope) (v : List ℤ) (u : Unrolled) : Node → Prop
  | .outer q => ReflTransGen (Adj M.unroll) u (.outer q)
  | .entry => ∃ p, ReflTransGen (Adj M.unroll) u (.outer p) ∧ Adj M.edges (.outer p) .entry
  | .inner n => ReflTransGen (Adj M.unroll) u (.copy v n)
  | .exit => ∃ n, ReflTransGen (Adj M.unroll) u (.copy v n) ∧ Adj M.edges (.inner n) .exit

theorem At.step (hvalid : M.Valid) (hpass : M.OrderPassed) (hv : v ∈ M.performed)
    (h : M.At v u y) (hyz : Adj M.edges y z) : M.At v u z := by
  have hne : M.performed ≠ [] := ne_nil_of_mem hv
  obtain ⟨e, he, rfl, rfl⟩ := hyz
  cases hsrc : e.src with
  | outer k =>
    rw [hsrc] at h
    obtain ⟨j, hj⟩ | hj := hvalid.outerDst e he k hsrc
    · rw [hj]
      exact ReflTransGen.tail h ((adj_unroll _ _).2 (.outside ⟨e, he, hsrc, hj⟩))
    · rw [hj]
      exact ⟨k, h, e, he, hsrc, hj⟩
  | entry =>
    rw [hsrc] at h
    obtain ⟨j, hj⟩ := hvalid.entryDst e he hsrc
    obtain ⟨p, hp, hadj⟩ := h
    obtain ⟨x, m, hpx, hfeeds, hmj⟩ := hpass.fed hne p j hadj ⟨e, he, hsrc, hj⟩
    rw [hj]
    exact ((hp.trans (outside_path hpx)).tail ((adj_unroll _ _).2 (.feeds hv hfeeds))).trans
      (inside_path hv hmj)
  | inner k =>
    rw [hsrc] at h
    obtain ⟨j, hj⟩ | hj := hvalid.innerDst e he k hsrc
    · rw [hj]
      exact ReflTransGen.tail h ((adj_unroll _ _).2 (.inside hv ⟨e, he, hsrc, hj⟩))
    · rw [hj]
      exact ⟨k, h, e, he, hsrc, hj⟩
  | exit =>
    rw [hsrc] at h
    obtain ⟨j, hj⟩ := hvalid.exitDst e he hsrc
    obtain ⟨n, hn, hadj⟩ := h
    obtain ⟨m, x, hnm, hdrains, hxq⟩ := hpass.drained hne n j hadj ⟨e, he, hsrc, hj⟩
    rw [hj]
    exact ((hn.trans (inside_path hv hnm)).tail ((adj_unroll _ _).2 (.drains hv hdrains))).trans
      (outside_path hxq)

theorem At.path (hvalid : M.Valid) (hpass : M.OrderPassed) (hv : v ∈ M.performed)
    (h : M.At v u y) (hyz : ReflTransGen (Adj M.edges) y z) :
    M.At v u z := by
  induction hyz with
  | refl => exact h
  | tail _ hstep ih => exact ih.step hvalid hpass hv hstep

/-- The same in a map without iterations. -/
def AtEmpty (M : MapScope) (u : Unrolled) : Node → Prop
  | .outer q => ReflTransGen (Adj M.unroll) u (.outer q)
  | _ => ∃ p, ReflTransGen (Adj M.unroll) u (.outer p) ∧ Adj M.edges (.outer p) .entry

theorem AtEmpty.path (hvalid : M.Valid) (hpass : M.OrderPassed) (hnone : M.performed = [])
    (h : M.AtEmpty u y) (hyz : ReflTransGen (Adj M.edges) y z) :
    M.AtEmpty u z := by
  induction hyz with
  | refl => exact h
  | tail _ hstep ih =>
    obtain ⟨e, he, rfl, rfl⟩ := hstep
    cases hsrc : e.src with
    | outer k =>
      rw [hsrc] at ih
      obtain ⟨j, hj⟩ | hj := hvalid.outerDst e he k hsrc
      · rw [hj]
        exact ReflTransGen.tail ih ((adj_unroll _ _).2 (.outside ⟨e, he, hsrc, hj⟩))
      · rw [hj]
        exact ⟨k, ih, e, he, hsrc, hj⟩
    | entry =>
      rw [hsrc] at ih
      obtain ⟨j, hj⟩ := hvalid.entryDst e he hsrc
      rw [hj]
      exact ih
    | inner k =>
      rw [hsrc] at ih
      obtain ⟨j, hj⟩ | hj := hvalid.innerDst e he k hsrc
      · rw [hj]
        exact ih
      · rw [hj]
        exact ih
    | exit =>
      rw [hsrc] at ih
      obtain ⟨j, hj⟩ := hvalid.exitDst e he hsrc
      obtain ⟨p, hp, hadj⟩ := ih
      rw [hj]
      exact hp.trans (outside_path (hpass.empty hnone p j hadj ⟨e, he, hsrc, hj⟩).to_reflTransGen)

theorem transGen_of_ne {α : Type} {R : α → α → Prop} {a b : α}
    (h : ReflTransGen R a b) (hne : b ≠ a) :
    TransGen R a b :=
  (reflTransGen_iff_eq_or_transGen.1 h).resolve_left hne

theorem OrderPassed.kept (hvalid : M.Valid) (hpass : M.OrderPassed) : M.OrderKept where
  around := by
    intro p q h
    refine transGen_of_ne ?_ ?_
    · cases hperf : M.performed with
      | nil =>
        exact AtEmpty.path hvalid hpass hperf (y := .outer p) ReflTransGen.refl h.to_reflTransGen
      | cons v vs =>
        have hv : v ∈ M.performed := by
          rw [hperf]
          exact mem_cons_self
        exact At.path hvalid hpass hv (y := .outer p) ReflTransGen.refl h.to_reflTransGen
    · rintro ⟨⟩
      exact hvalid.acyclic _ h
  into := by
    intro v hv p n h
    exact transGen_of_ne
      (At.path hvalid hpass hv (y := .outer p) ReflTransGen.refl h.to_reflTransGen) (by simp)
  out := by
    intro v hv n q h
    exact transGen_of_ne
      (At.path hvalid hpass hv (y := .inner n) ReflTransGen.refl h.to_reflTransGen) (by simp)
  within := by
    intro v hv m n h
    refine transGen_of_ne
      (At.path hvalid hpass hv (y := .inner m) ReflTransGen.refl h.to_reflTransGen) ?_
    rintro ⟨⟩
    exact hvalid.acyclic _ h

/-! ## The condition is needed -/

/-- The node a node of the rewritten state stands for. -/
def origin : Unrolled → Node
  | .outer k => .outer k
  | .copy _ k => .inner k

theorem Feeds.path (hvalid : M.Valid) (h : M.Feeds x m) :
    TransGen (Adj M.edges) (.outer x) .entry ∧ Adj M.edges .entry (.inner m) := by
  obtain ⟨e, he, hsrc, hdst, hfeeds⟩ := h
  refine ⟨?_, e, he, hsrc, hdst⟩
  obtain ⟨-, ⟨p, hp, hpx⟩ | ⟨-, s, hs, rfl⟩⟩ | ⟨-, c, f, -, hf, hfx⟩ := hfeeds
  · obtain ⟨hmem, hprop⟩ := mem_filter.1 hp
    simp only [decide_eq_true_eq, Bool.decide_and, Bool.and_eq_true] at hprop
    exact .single ⟨p, hmem, hpx, hprop.1⟩
  · exact (hvalid.nested s hs).1
  · have hprop := List.find?_some hf
    simp only [decide_eq_true_eq, Bool.decide_and, Bool.and_eq_true] at hprop
    exact .single ⟨f, mem_of_find?_eq_some hf, hfx, hprop.1⟩

theorem Drains.path (hvalid : M.Valid) (h : M.Drains m x) :
    Adj M.edges (.inner m) .exit ∧ TransGen (Adj M.edges) .exit (.outer x) := by
  obtain ⟨e, he, hsrc, hdst, hdrains⟩ := h
  refine ⟨⟨e, he, hsrc, hdst⟩, ?_⟩
  obtain ⟨-, ⟨q, hq, hqx⟩ | ⟨-, s, hs, rfl⟩⟩ | ⟨-, c, f, -, hf, hfx⟩ := hdrains
  · obtain ⟨hmem, hprop⟩ := mem_filter.1 hq
    simp only [decide_eq_true_eq, Bool.decide_and, Bool.and_eq_true] at hprop
    exact .single ⟨q, hmem, hprop.1, hqx⟩
  · exact (hvalid.nested s hs).2
  · have hprop := List.find?_some hf
    simp only [decide_eq_true_eq, Bool.decide_and, Bool.and_eq_true] at hprop
    exact .single ⟨f, mem_of_find?_eq_some hf, hprop.1, hfx⟩

/-- The rewritten state orders nothing anew. -/
theorem origin_step (hvalid : M.Valid) (h : Adj M.unroll a b) :
    TransGen (Adj M.edges) (origin a) (origin b) := by
  cases (adj_unroll a b).1 h with
  | outside hout => exact .single hout
  | inside _ hin => exact .single hin
  | feeds _ hfeeds =>
    obtain ⟨hx, hm⟩ := hfeeds.path hvalid
    exact hx.tail hm
  | drains _ hdrains =>
    obtain ⟨hm, hx⟩ := hdrains.path hvalid
    exact hx.head hm

theorem origin_path (hvalid : M.Valid) (h : ReflTransGen (Adj M.unroll) a b) :
    ReflTransGen (Adj M.edges) (origin a) (origin b) := by
  induction h with
  | refl => exact .refl
  | tail _ hstep ih => exact ih.trans (origin_step hvalid hstep).to_reflTransGen

theorem within_scope (hvalid : M.Valid) (h : TransGen (Adj M.edges) (.inner m) y) :
    TransGen (Adj M.edges) .entry (.inner m) ∧ TransGen (Adj M.edges) (.inner m) .exit := by
  obtain ⟨z, ⟨e, he, hsrc, -⟩, -⟩ := TransGen.head'_iff.1 h
  exact ⟨hvalid.fromEntry e he m (.inl hsrc), hvalid.toExit e he m (.inl hsrc)⟩

/-- A path between nodes outside that leaves them runs through a copy. -/
theorem outside_or_through (hvalid : M.Valid)
    (h : ReflTransGen (Adj M.unroll) (.outer p) (.outer q)) :
    ReflTransGen M.Outside p q
    ∨ ∃ v m, ReflTransGen (Adj M.unroll) (.outer p) (.copy v m)
        ∧ TransGen (Adj M.edges) (.inner m) (.outer q) := by
  generalize hb : Unrolled.outer q = b at h
  induction h generalizing q with
  | refl =>
    cases hb
    exact .inl .refl
  | @tail y b hpath hstep ih =>
    subst hb
    cases (adj_unroll _ _).1 hstep with
    | @outside y' _ hout =>
      obtain hleft | ⟨v, m, hcopy, hm⟩ := ih rfl
      · exact .inl (hleft.tail hout)
      · exact .inr ⟨v, m, hcopy, hm.tail hout⟩
    | @drains v m _ _ hdrains =>
      obtain ⟨hm, hx⟩ := hdrains.path hvalid
      exact .inr ⟨v, m, hpath, hx.head hm⟩

theorem linked_in (hvalid : M.Valid)
    (h : ReflTransGen (Adj M.unroll) (.outer p) (.copy v n)) :
    ∃ x m, ReflTransGen M.Outside p x ∧ M.Feeds x m ∧ ReflTransGen M.Inside m n := by
  generalize hb : Unrolled.copy v n = b at h
  induction h generalizing n with
  | refl => cases hb
  | @tail y b hpath hstep ih =>
    subst hb
    cases (adj_unroll _ _).1 hstep with
    | @feeds x _ _ _ hfeeds =>
      obtain hout | ⟨w, m, -, hm⟩ := outside_or_through hvalid hpath
      · exact ⟨x, n, hout, hfeeds, .refl⟩
      · -- from the scope to its own entry: a cycle
        have hcycle := (hm.trans (hfeeds.path hvalid).1).trans (within_scope hvalid hm).1
        exact absurd hcycle (hvalid.acyclic _)
    | inside _ hin =>
      obtain ⟨x, m, hout, hfeeds, hm⟩ := ih rfl
      exact ⟨x, m, hout, hfeeds, hm.tail hin⟩

theorem linked_out (hvalid : M.Valid)
    (h : ReflTransGen (Adj M.unroll) (.copy v n) (.outer q)) :
    ∃ m x, ReflTransGen M.Inside n m ∧ M.Drains m x ∧ ReflTransGen M.Outside x q := by
  generalize ha : Unrolled.copy v n = a at h
  induction h using ReflTransGen.head_induction_on generalizing n with
  | refl => cases ha
  | @head a c hstep hpath ih =>
    subst ha
    cases (adj_unroll _ _).1 hstep with
    | @drains _ _ x _ hdrains =>
      obtain hout | ⟨w, m, hcopy, hm⟩ := outside_or_through hvalid hpath
      · exact ⟨n, x, .refl, hdrains, hout⟩
      · -- from behind the exit into the scope: a cycle
        have hback : ReflTransGen (Adj M.edges) (.outer x) (.inner m) := origin_path hvalid hcopy
        have hcycle := ((hdrains.path hvalid).2.trans_left hback).trans (within_scope hvalid hm).2
        exact absurd hcycle (hvalid.acyclic _)
    | inside _ hin =>
      obtain ⟨m, x, hm, hdrains, hout⟩ := ih rfl
      exact ⟨m, x, hm.head hin, hdrains, hout⟩

theorem outside_of_empty (hnone : M.performed = [])
    (h : TransGen (Adj M.unroll) (.outer p) (.outer q)) : TransGen M.Outside p q := by
  generalize hb : Unrolled.outer q = b at h
  have hstep_out : ∀ {y : Unrolled} {k : ℕ}, Adj M.unroll y (.outer k) →
      ∃ j, y = .outer j ∧ M.Outside j k := by
    intro y k hstep
    cases (adj_unroll _ _).1 hstep with
    | outside h => exact ⟨_, rfl, h⟩
    | drains hv _ =>
      rw [hnone] at hv
      cases hv
  induction h generalizing q with
  | single hstep =>
    subst hb
    obtain ⟨j, hj, hout⟩ := hstep_out hstep
    cases hj
    exact .single hout
  | tail _ hstep ih =>
    subst hb
    obtain ⟨j, rfl, hout⟩ := hstep_out hstep
    exact (ih rfl).tail hout

theorem OrderKept.passed (hvalid : M.Valid) (hkept : M.OrderKept) : M.OrderPassed where
  fed := by
    intro hne p n hp hn
    obtain ⟨v, vs, hv⟩ := exists_cons_of_ne_nil hne
    have hmem : v ∈ M.performed := by
      rw [hv]
      exact mem_cons_self
    exact linked_in hvalid (hkept.into v hmem p n ((TransGen.single hp).tail hn)).to_reflTransGen
  drained := by
    intro hne n q hn hq
    obtain ⟨v, vs, hv⟩ := exists_cons_of_ne_nil hne
    have hmem : v ∈ M.performed := by
      rw [hv]
      exact mem_cons_self
    exact linked_out hvalid (hkept.out v hmem n q ((TransGen.single hn).tail hq)).to_reflTransGen
  empty := by
    intro hnone p q hp hq
    exact outside_of_empty hnone (hkept.around p q ((hvalid.through.head hp).tail hq))

/-- The order is kept exactly where the edges of the scope carry it. -/
theorem orderKept_iff (hvalid : M.Valid) : M.OrderKept ↔ M.OrderPassed :=
  ⟨fun h => h.passed hvalid, fun h => h.kept hvalid⟩

end MapScope

end UnrollMaps
