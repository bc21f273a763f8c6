/-
# When the unrolled tasklets are the map

A map runs over its ranges with their ends; `range(begin, end + 1, step)` is that range for an
ascending one only (`constantRange_eq_iff`).  Each copy reads, writes and computes what its
iteration does in the map, its local containers apart from those of the others.
-/
import Mathlib.Algebra.BigOperators.Ring.List
import Mathlib.Algebra.Order.Ring.Int
import Mathlib.Tactic.Ring
import DaceFortran.UnrollMaps.UnrolledOrder

namespace UnrollMaps

open Relation

/-! ## Substitution -/

/-- The parameters bound to their values. -/
def bindAll : List (String × ℤ) → (String → ℤ) → String → ℤ
  | [], env => env
  | (p, v) :: rest, env => Function.update (bindAll rest env) p v

theorem eval_replace (fns : String → ℤ → ℤ → ℤ) (env : String → ℤ) (p : String) (v : ℤ) (e : Expr) :
    (e.replace p v).eval fns env = e.eval fns (Function.update env p v) := by
  induction e with
  | const z => rfl
  | sym x =>
    by_cases hx : x = p
    · subst hx
      simp [Expr.replace, Expr.eval]
    · simp [Expr.replace, Expr.eval, hx]
  | neg a ih => simp only [Expr.replace, Expr.eval, ih]
  | add a b iha ihb => simp only [Expr.replace, Expr.eval, iha, ihb]
  | mul a b iha ihb => simp only [Expr.replace, Expr.eval, iha, ihb]
  | fn f a b iha ihb => simp only [Expr.replace, Expr.eval, iha, ihb]

theorem eval_replaceAll (fns : String → ℤ → ℤ → ℤ) (env : String → ℤ) (vals : List (String × ℤ))
    (e : Expr) : (e.replaceAll vals).eval fns env = e.eval fns (bindAll vals env) := by
  induction vals generalizing e with
  | nil => rfl
  | cons p vals ih =>
    show ((e.replace p.1 p.2).replaceAll vals).eval fns env = _
    rw [ih, eval_replace]
    rfl

/-! ## What a node reads and writes -/

/-- One access: the connector, the container, its elements and the resolution. -/
structure Touch where
  conn : Option Conn
  data : String
  subset : List (ℤ × ℤ × ℤ)
  wcr : Option String

def touch (fns : String → ℤ → ℤ → ℤ) (env : String → ℤ) (c : Option Conn) (m : Memlet) : Touch :=
  ⟨c, m.data, m.subset.map fun r => (r.1.eval fns env, r.2.1.eval fns env,
    r.2.2.eval fns env), m.wcr⟩

/-- What a node reads. -/
def Reads {N : Type} (fns : String → ℤ → ℤ → ℤ) (env : String → ℤ) (edges : List (Edge N)) (n : N)
    (t : Touch) : Prop :=
  ∃ e ∈ edges, e.dst = n ∧ ∃ m ∈ e.memlet, t = touch fns env e.dstConn m

/-- What a node writes. -/
def Writes {N : Type} (fns : String → ℤ → ℤ → ℤ) (env : String → ℤ) (edges : List (Edge N)) (n : N)
    (t : Touch) : Prop :=
  ∃ e ∈ edges, e.src = n ∧ ∃ m ∈ e.memlet, t = touch fns env e.srcConn m

namespace MapScope

variable {M : MapScope}

/-- An iteration's own container for a local one. -/
def own (M : MapScope) (v : List ℤ) (t : Touch) : Touch := { t with data := M.renamed v t.data }

theorem touch_memletOf (fns : String → ℤ → ℤ → ℤ) (env : String → ℤ) (v : List ℤ) (c : Option Conn)
    (m : Memlet) :
    touch fns env c (M.memletOf v m) = M.own v (touch fns (bindAll (M.vals v) env) c m) := by
  simp only [touch, memletOf, substituted, own, List.map_map]
  congr 1
  apply List.map_congr_left
  intro r _
  simp only [Function.comp_apply, eval_replaceAll]

variable {v : List ℤ} {rs : List (ℤ × ℤ × ℤ)} {a d : ℤ × ℤ × ℤ → ℕ}

/-- What enters a copy is what entered its node, in its iteration. -/
theorem reads_copy (hvalid : M.Valid) (fns : String → ℤ → ℤ → ℤ) (env : String → ℤ)
    (hv : v ∈ M.performed) (n : ℕ) (t : Touch) :
    Reads fns env M.unroll (.copy v n) t
      ↔ ∃ u, Reads fns (bindAll (M.vals v) env) M.edges (.inner n) u ∧ t = M.own v u := by
  constructor
  · rintro ⟨e', he', hdst', m', hm', rfl⟩
    suffices h : ∃ e ∈ M.edges, e.dst = .inner n ∧ e'.dstConn = e.dstConn
        ∧ ∃ m ∈ e.memlet, m' = M.memletOf v m by
      obtain ⟨e, he, hdst, hconn, m, hm, rfl⟩ := h
      exact ⟨_, ⟨e, he, hdst, m, hm, rfl⟩, by rw [touch_memletOf, hconn]⟩
    cases fromEdge_of_mem he' with
    | outside _ _ _ _ hd =>
      rw [hd] at hdst'
      cases hdst'
    | inside _ he _ hdst _ hd _ hin hmem =>
      rw [hd] at hdst'
      cases hdst'
      rw [Option.mem_def, hmem] at hm'
      obtain ⟨m, hm, rfl⟩ := Option.map_eq_some_iff.1 hm'
      exact ⟨_, he, hdst, hin, m, hm, rfl⟩
    | fed _ he hdst _ hd _ hin hmem =>
      rw [hd] at hdst'
      cases hdst'
      have hconn := hin (by rw [Option.mem_def.1 hm']; simp)
      rw [Option.mem_def, hmem] at hm'
      obtain ⟨m, hm, rfl⟩ := Option.map_eq_some_iff.1 hm'
      exact ⟨_, he, hdst, hconn, m, hm, rfl⟩
    | drained _ _ _ _ hd =>
      rw [hd] at hdst'
      cases hdst'
  · rintro ⟨u, ⟨e, he, hdst, m, hm, rfl⟩, rfl⟩
    rw [← touch_memletOf]
    cases hsrc : e.src with
    | outer k =>
      obtain ⟨j, hj⟩ | hj := hvalid.outerDst e he k hsrc <;> (rw [hdst] at hj; cases hj)
    | exit =>
      obtain ⟨j, hj⟩ := hvalid.exitDst e he hsrc
      rw [hdst] at hj
      cases hj
    | inner a =>
      refine ⟨⟨.copy v a, e.srcConn, .copy v n, e.dstConn, e.memlet.map (M.memletOf v)⟩,
        List.mem_append_right _ (List.mem_flatMap.2 ⟨v, hv, List.mem_append_left _
          (List.mem_append_left _ (List.mem_flatMap.2 ⟨e, he, ?_⟩))⟩), rfl, M.memletOf v m, ?_, rfl⟩
      · rw [insideEdge, hsrc, hdst]
        exact List.mem_singleton.2 rfl
      · rw [Option.mem_def.1 hm]
        rfl
    | entry =>
      obtain ⟨x, f, hconn, hf⟩ := hvalid.insFound e he hsrc (by rw [Option.mem_def.1 hm]; simp)
      have hfmem := List.mem_of_find?_eq_some hf
      have hfprop := List.find?_some hf
      simp only [decide_eq_true_eq, Bool.decide_and, Bool.and_eq_true] at hfprop
      obtain ⟨k, hk⟩ := source_of_entry hvalid hfmem hfprop.1
      refine ⟨⟨.outer k, f.srcConn, .copy v n, e.dstConn, some (M.memletOf v m)⟩,
        adj_of_entryEdge hv he ?_, rfl, M.memletOf v m, rfl, rfl⟩
      rw [entryEdge, hsrc, hdst, Option.mem_def.1 hm, hconn]
      refine Option.mem_toList.2 ?_
      show (M.ins x).bind _ = _
      rw [hf, Option.bind_some, hk]
      rfl

/-- What leaves a copy is what left its node, in its iteration. -/
theorem writes_copy (hvalid : M.Valid) (fns : String → ℤ → ℤ → ℤ) (env : String → ℤ)
    (hv : v ∈ M.performed) (n : ℕ) (t : Touch) :
    Writes fns env M.unroll (.copy v n) t
      ↔ ∃ u, Writes fns (bindAll (M.vals v) env) M.edges (.inner n) u ∧ t = M.own v u := by
  constructor
  · rintro ⟨e', he', hsrc', m', hm', rfl⟩
    suffices h : ∃ e ∈ M.edges, e.src = .inner n ∧ e'.srcConn = e.srcConn
        ∧ ∃ m ∈ e.memlet, m' = M.memletOf v m by
      obtain ⟨e, he, hsrc, hconn, m, hm, rfl⟩ := h
      exact ⟨_, ⟨e, he, hsrc, m, hm, rfl⟩, by rw [touch_memletOf, hconn]⟩
    cases fromEdge_of_mem he' with
    | outside _ _ _ hs =>
      rw [hs] at hsrc'
      cases hsrc'
    | inside _ he hsrc _ hs _ hout _ hmem =>
      rw [hs] at hsrc'
      cases hsrc'
      rw [Option.mem_def, hmem] at hm'
      obtain ⟨m, hm, rfl⟩ := Option.map_eq_some_iff.1 hm'
      exact ⟨_, he, hsrc, hout, m, hm, rfl⟩
    | fed _ _ _ hs =>
      rw [hs] at hsrc'
      cases hsrc'
    | drained _ he hsrc hs _ _ hout hmem =>
      rw [hs] at hsrc'
      cases hsrc'
      have hconn := hout (by rw [Option.mem_def.1 hm']; simp)
      rw [Option.mem_def, hmem] at hm'
      obtain ⟨m, hm, rfl⟩ := Option.map_eq_some_iff.1 hm'
      exact ⟨_, he, hsrc, hconn, m, hm, rfl⟩
  · rintro ⟨u, ⟨e, he, hsrc, m, hm, rfl⟩, rfl⟩
    rw [← touch_memletOf]
    obtain ⟨b, hb⟩ | hdst := hvalid.innerDst e he n hsrc
    · refine ⟨⟨.copy v n, e.srcConn, .copy v b, e.dstConn, e.memlet.map (M.memletOf v)⟩,
        List.mem_append_right _ (List.mem_flatMap.2 ⟨v, hv, List.mem_append_left _
          (List.mem_append_left _ (List.mem_flatMap.2 ⟨e, he, ?_⟩))⟩), rfl, M.memletOf v m, ?_, rfl⟩
      · rw [insideEdge, hsrc, hb]
        exact List.mem_singleton.2 rfl
      · rw [Option.mem_def.1 hm]
        rfl
    · obtain ⟨x, f, hconn, hf⟩ := hvalid.outsFound e he hdst (by rw [Option.mem_def.1 hm]; simp)
      have hfmem := List.mem_of_find?_eq_some hf
      have hfprop := List.find?_some hf
      simp only [decide_eq_true_eq, Bool.decide_and, Bool.and_eq_true] at hfprop
      obtain ⟨k, hk⟩ := hvalid.exitDst f hfmem hfprop.1
      refine ⟨⟨.copy v n, e.srcConn, .outer k, f.dstConn, some (M.memletOf v m)⟩,
        adj_of_exitEdge hv he ?_, rfl, M.memletOf v m, rfl, rfl⟩
      rw [exitEdge, hsrc, hdst, Option.mem_def.1 hm, hconn]
      refine Option.mem_toList.2 ?_
      show (M.outs x).bind _ = _
      rw [hf, Option.bind_some, hk]
      rfl

/-! ## The ranges -/

/-- The values of a map's parameter: its range with its end. -/
def mapRange (r : ℤ × ℤ × ℤ) : List ℤ :=
  (List.range (if 0 < r.2.2 then (r.2.1 - r.1) / r.2.2 + 1
    else (r.1 - r.2.1) / -r.2.2 + 1).toNat).map fun (k : ℕ) => r.1 + r.2.2 * k

/-- The iterations of the map. -/
def iterations (M : MapScope) : List (List ℤ) := product (M.ranges.map mapRange)

/-- A range that ascends, is empty, or ends two or more before its end. -/
def Covered (r : ℤ × ℤ × ℤ) : Prop := 0 < r.2.2 ∨ r.1 < r.2.1 ∨ 2 ≤ (r.1 - r.2.1) % -r.2.2

def EmptyRange (r : ℤ × ℤ × ℤ) : Prop := 0 < r.2.2 ∧ r.2.1 < r.1 ∨ r.2.2 < 0 ∧ r.1 < r.2.1

/-- Dividing two less by a positive number. -/
theorem sub_two_ediv {d t : ℤ} (ht : 0 < t) :
    (d - 2) / t ≤ d / t ∧ ((d - 2) / t = d / t ↔ 2 ≤ d % t) := by
  refine ⟨Int.ediv_le_ediv ht (by omega), ?_⟩
  have hd := Int.mul_ediv_add_emod d t
  have hd' := Int.mul_ediv_add_emod (d - 2) t
  have hr := Int.emod_nonneg d ht.ne'
  have hr' := Int.emod_nonneg (d - 2) ht.ne'
  have hlt := Int.emod_lt_of_pos (d - 2) ht
  constructor
  · intro h
    rw [h] at hd'
    omega
  · intro h
    have hle : t * (d / t) ≤ d - 2 := by omega
    refine le_antisymm (Int.ediv_le_ediv ht (by omega)) ?_
    rw [Int.le_ediv_iff_mul_le ht, mul_comm]
    exact hle

/-- How many values Python's range has, and how many the map's. -/
theorem lengths (r : ℤ × ℤ × ℤ) (hstep : r.2.2 ≠ 0) :
    (constantRange r).length ≤ (mapRange r).length
    ∧ ((constantRange r).length = (mapRange r).length ↔ Covered r)
    ∧ ((mapRange r).length = 0 ↔ EmptyRange r) := by
  obtain ⟨b, e, s⟩ := r
  simp only [constantRange, pyRange, mapRange, List.length_map, List.length_range,
    Covered, EmptyRange]
  by_cases hs : 0 < s
  · rw [if_pos hs, if_pos hs]
    have heq : (e + 1 - b + s - 1) / s = (e - b) / s + 1 := by
      rw [show e + 1 - b + s - 1 = e - b + s from by omega, Int.add_ediv_of_dvd_right dvd_rfl,
        Int.ediv_self hs.ne']
    rw [heq]
    refine ⟨le_rfl, ⟨fun _ => .inl hs, fun _ => rfl⟩, ?_⟩
    have hneg := Int.ediv_nonneg_iff_of_pos (a := e - b) hs
    omega
  · have ht : 0 < -s := by
      have : s ≠ 0 := hstep
      omega
    rw [if_neg hs, if_neg hs]
    have heq : (b - (e + 1) - s - 1) / -s = (b - e - 2) / -s + 1 := by
      rw [show b - (e + 1) - s - 1 = b - e - 2 + -s from by
        omega, Int.add_ediv_of_dvd_right dvd_rfl,
        Int.ediv_self ht.ne']
    rw [heq]
    obtain ⟨hle, hiff⟩ := sub_two_ediv (d := b - e) ht
    have hneg := Int.ediv_nonneg_iff_of_pos (a := b - e) ht
    refine ⟨by omega, ?_, by omega⟩
    by_cases hbe : b < e
    · constructor
      · exact fun _ => .inr (.inl hbe)
      · intro _
        omega
    · rw [← hiff]
      omega

theorem constantRange_eq_iff (r : ℤ × ℤ × ℤ) (hstep : r.2.2 ≠ 0) :
    constantRange r = mapRange r ↔ Covered r := by
  rw [← (lengths r hstep).2.1]
  constructor
  · intro h
    rw [h]
  · intro h
    simp only [constantRange, pyRange, mapRange, List.length_map, List.length_range] at h ⊢
    rw [h]

theorem length_product (rs : List (List ℤ)) :
    (product rs).length = (rs.map List.length).prod := by
  induction rs with
  | nil => rfl
  | cons r rs ih =>
    rw [product, List.map_cons, List.prod_cons, ← ih]
    induction r with
    | nil => simp
    | cons x r ihr =>
      rw [List.flatMap_cons, List.length_append, ihr, List.length_map, List.length_cons]
      ring

theorem prod_le (h : ∀ r ∈ rs, a r ≤ d r) :
    (rs.map a).prod ≤ (rs.map d).prod := by
  induction rs with
  | nil => exact le_rfl
  | cons r rs ih =>
    rw [List.map_cons, List.map_cons, List.prod_cons, List.prod_cons]
    exact Nat.mul_le_mul (h r List.mem_cons_self) (ih fun q hq => h q (List.mem_cons_of_mem _ hq))

theorem prod_lt (h : ∀ r ∈ rs, a r ≤ d r)
    (hpos : ∀ r ∈ rs, 0 < d r) (hlt : ∃ r ∈ rs, a r < d r) : (rs.map a).prod < (rs.map d).prod := by
  induction rs with
  | nil => simp at hlt
  | cons r rs ih =>
    have hle : ∀ q ∈ rs, a q ≤ d q := fun q hq => h q (List.mem_cons_of_mem _ hq)
    have hpos' : ∀ q ∈ rs, 0 < d q := fun q hq => hpos q (List.mem_cons_of_mem _ hq)
    have hprod : 0 < (rs.map d).prod := by
      apply Nat.pos_of_ne_zero
      apply List.prod_ne_zero
      intro hzero
      obtain ⟨q, hq, hdq⟩ := List.mem_map.1 hzero
      have := hpos' q hq
      omega
    rw [List.map_cons, List.map_cons, List.prod_cons, List.prod_cons]
    obtain ⟨q, hq, haq⟩ := hlt
    obtain rfl | hq := List.mem_cons.1 hq
    · exact Nat.mul_lt_mul_of_lt_of_le haq (prod_le hle) hprod
    · exact Nat.mul_lt_mul_of_le_of_lt (h r List.mem_cons_self) (ih hle hpos' ⟨q, hq, haq⟩)
        (hpos r List.mem_cons_self)

/-- The ranges Python runs over are the map's. -/
def RangesCovered (M : MapScope) : Prop :=
  (∀ r ∈ M.ranges, Covered r) ∨ ∃ r ∈ M.ranges, EmptyRange r

theorem performed_iff (hsteps : ∀ r ∈ M.ranges, r.2.2 ≠ 0) :
    M.performed = M.iterations ↔ M.RangesCovered := by
  have hle : ∀ r ∈ M.ranges, (constantRange r).length ≤ (mapRange r).length := fun r hr =>
    (lengths r (hsteps r hr)).1
  constructor
  · intro h
    by_contra hno
    rw [RangesCovered, not_or] at hno
    obtain ⟨hcov, hempty⟩ := hno
    simp only [not_forall, not_exists, not_and] at hcov hempty
    obtain ⟨r, hr, hnot⟩ := hcov
    have hlt : (M.ranges.map fun r => (constantRange r).length).prod
        < (M.ranges.map fun r => (mapRange r).length).prod := by
      refine prod_lt hle ?_ ⟨r, hr, ?_⟩
      · intro q hq
        apply Nat.pos_of_ne_zero
        intro hzero
        exact hempty q hq ((lengths q (hsteps q hq)).2.2.1 hzero)
      · refine lt_of_le_of_ne (hle r hr) ?_
        intro heq
        exact hnot ((lengths r (hsteps r hr)).2.1.1 heq)
    have hlen := congrArg List.length h
    rw [performed, iterations, length_product, length_product, List.map_map, List.map_map] at hlen
    exact absurd hlen hlt.ne
  · rintro (hcov | ⟨r, hr, hempty⟩)
    · rw [performed, iterations]
      congr 1
      apply List.map_congr_left
      intro r hr
      exact (constantRange_eq_iff r (hsteps r hr)).2 (hcov r hr)
    · -- one empty range empties both
      have hzero : (mapRange r).length = 0 := (lengths r (hsteps r hr)).2.2.2 hempty
      have hzero' : (constantRange r).length = 0 := Nat.le_zero.1 (hzero ▸ hle r hr)
      have hnil : ∀ f : ℤ × ℤ × ℤ → List ℤ, (f r).length = 0 → product (M.ranges.map f) = [] := by
        intro f hf
        apply List.eq_nil_of_length_eq_zero
        rw [length_product, List.map_map]
        rw [List.prod_eq_zero_iff]
        exact List.mem_map.2 ⟨r, hr, hf⟩
      rw [performed, iterations, hnil _ hzero, hnil _ hzero']

/-! ## The map -/

/-- The rewritten state does what the map did: its iterations, each copy reading, writing and
computing what its node did in its iteration, on its own local containers, in the map's order. -/
structure Equals (M : MapScope) : Prop where
  iterations : M.performed = M.iterations
  reads : ∀ fns env, ∀ v ∈ M.iterations, ∀ n t, Reads fns env M.unroll (.copy v n) t
    ↔ ∃ u, Reads fns (bindAll (M.vals v) env) M.edges (.inner n) u ∧ t = M.own v u
  writes : ∀ fns env, ∀ v ∈ M.iterations, ∀ n t, Writes fns env M.unroll (.copy v n) t
    ↔ ∃ u, Writes fns (bindAll (M.vals v) env) M.edges (.inner n) u ∧ t = M.own v u
  code : ∀ fns env v k, (M.codeOf v k).map (Expr.eval fns env)
    = (M.code k).map (Expr.eval fns (bindAll (M.vals v) env))
  separate : ∀ v ∈ M.iterations, ∀ w ∈ M.iterations, ∀ a ∈ M.locals, ∀ b ∈ M.locals,
    M.renamed v a = M.renamed w b → v = w ∧ a = b
  order : M.OrderKept

/-- The unrolled tasklets are the map exactly where its ranges are covered and the edges of its
scope carry its order. -/
theorem unroll_equals_iff (hvalid : M.Valid) : M.Equals ↔ M.RangesCovered ∧ M.OrderPassed := by
  constructor
  · intro h
    exact ⟨(performed_iff hvalid.steps).1 h.iterations, (orderKept_iff hvalid).1 h.order⟩
  · rintro ⟨hranges, horder⟩
    have hiter := (performed_iff hvalid.steps).2 hranges
    refine ⟨hiter, fun fns env v hv => ?_, fun fns env v hv => ?_, fun fns env v k => ?_,
      fun v hv w hw a ha b hb h => ?_, (orderKept_iff hvalid).2 horder⟩
    · exact reads_copy hvalid fns env (hiter ▸ hv)
    · exact writes_copy hvalid fns env (hiter ▸ hv)
    · rw [codeOf, Option.map_map]
      congr 1
      funext e
      exact eval_replaceAll fns env (M.vals v) e
    · rw [renamed, renamed, if_pos ha, if_pos hb] at h
      exact hvalid.freshInj v (hiter ▸ hv) w (hiter ▸ hw) a ha b hb h

/-! ## One tasklet -/

/-- `y[i] = x[i]` over a range. -/
def copyMap (r : ℤ × ℤ × ℤ) : MapScope where
  params := ["i"]
  ranges := [r]
  edges :=
    [⟨.outer 0, none, .entry, some (.inp "x"), some ⟨"x", [], none⟩⟩,
      ⟨.entry, some (.out "x"), .inner 0, some (.plain "a"),
        some ⟨"x", [(.sym "i", .sym "i", .const 1)], none⟩⟩,
      ⟨.inner 0, some (.plain "b"), .exit, some (.inp "y"),
        some ⟨"y", [(.sym "i", .sym "i", .const 1)], none⟩⟩,
      ⟨.exit, some (.out "y"), .outer 1, none, some ⟨"y", [], none⟩⟩]
  code := fun _ => some (.sym "a")
  outerScope := none
  locals := []
  fresh := fun _ a => a

variable {r : ℤ × ℤ × ℤ}

/-- The steps of its state. -/
theorem adj_copyMap {a b : Node} :
    Adj (copyMap r).edges a b ↔ a = .outer 0 ∧ b = .entry ∨ a = .entry ∧ b = .inner 0
      ∨ a = .inner 0 ∧ b = .exit ∨ a = .exit ∧ b = .outer 1 := by
  simp only [Adj, copyMap, List.mem_cons, List.not_mem_nil, or_false, exists_eq_or_imp,
    exists_eq_left, eq_comm]

/-- How far along a node is. -/
def rank : Node → ℕ
  | .outer k => 4 * k
  | .entry => 1
  | .inner _ => 2
  | .exit => 3

theorem rank_lt {a b : Node} (h : TransGen (Adj (copyMap r).edges) a b) :
    rank a < rank b := by
  have hstep : ∀ {a b}, Adj (copyMap r).edges a b → rank a < rank b := by
    intro a b h
    obtain ⟨rfl, rfl⟩ | ⟨rfl, rfl⟩ | ⟨rfl, rfl⟩ | ⟨rfl, rfl⟩ := adj_copyMap.1 h <;> decide
  induction h with
  | single h => exact hstep h
  | tail _ h ih => exact ih.trans (hstep h)

theorem valid_copyMap (hr : r.2.2 ≠ 0) : (copyMap r).Valid where
  outerDst := by
    intro e he k hsrc
    simp only [copyMap, List.mem_cons, List.not_mem_nil, or_false] at he
    obtain rfl | rfl | rfl | rfl := he <;> simp_all
  entryDst := by
    intro e he hsrc
    simp only [copyMap, List.mem_cons, List.not_mem_nil, or_false] at he
    obtain rfl | rfl | rfl | rfl := he <;> simp_all
  innerDst := by
    intro e he k hsrc
    simp only [copyMap, List.mem_cons, List.not_mem_nil, or_false] at he
    obtain rfl | rfl | rfl | rfl := he <;> simp_all
  exitDst := by
    intro e he hsrc
    simp only [copyMap, List.mem_cons, List.not_mem_nil, or_false] at he
    obtain rfl | rfl | rfl | rfl := he <;> simp_all
  acyclic := fun x h => lt_irrefl _ (rank_lt h)
  fromEntry := by
    intro e he k hk
    have hk0 : k = 0 := by
      simp only [copyMap, List.mem_cons, List.not_mem_nil, or_false] at he
      obtain rfl | rfl | rfl | rfl := he <;> simp_all
    subst hk0
    exact .single (adj_copyMap.2 (by simp))
  toExit := by
    intro e he k hk
    have hk0 : k = 0 := by
      simp only [copyMap, List.mem_cons, List.not_mem_nil, or_false] at he
      obtain rfl | rfl | rfl | rfl := he <;> simp_all
    subst hk0
    exact .single (adj_copyMap.2 (by simp))
  through := by
    have hin : Adj (copyMap r).edges .entry (.inner 0) := adj_copyMap.2 (by simp)
    have hout : Adj (copyMap r).edges (.inner 0) .exit := adj_copyMap.2 (by simp)
    exact (TransGen.single hin).tail hout
  nested := by
    intro s hs
    cases hs
  insFound := by
    intro e he hsrc _
    simp only [copyMap, List.mem_cons, List.not_mem_nil, or_false] at he
    obtain rfl | rfl | rfl | rfl := he
    · cases hsrc
    · exact ⟨"x", _, rfl, rfl⟩
    · cases hsrc
    · cases hsrc
  outsFound := by
    intro e he hdst _
    simp only [copyMap, List.mem_cons, List.not_mem_nil, or_false] at he
    obtain rfl | rfl | rfl | rfl := he
    · cases hdst
    · cases hdst
    · exact ⟨"y", _, rfl, rfl⟩
    · cases hdst
  freshInj := by
    intro v _ w _ a ha
    cases ha
  steps := by
    intro q hq
    obtain rfl := List.mem_singleton.1 hq
    exact hr

theorem passed_copyMap (r : ℤ × ℤ × ℤ) (hne : (copyMap r).performed ≠ []) :
    (copyMap r).OrderPassed where
  fed := by
    intro _ p n hp hn
    have hp0 : p = 0 := by simpa using adj_copyMap.1 hp
    have hn0 : n = 0 := by simpa using adj_copyMap.1 hn
    subst hp0 hn0
    refine ⟨0, 0, .refl, ?_, .refl⟩
    exact ⟨_, List.mem_cons_of_mem _ List.mem_cons_self, rfl, rfl,
      .inr ⟨by simp, "x", _, rfl, rfl, rfl⟩⟩
  drained := by
    intro _ n q hn hq
    have hn0 : n = 0 := by simpa using adj_copyMap.1 hn
    have hq1 : q = 1 := by simpa using adj_copyMap.1 hq
    subst hn0 hq1
    refine ⟨0, 1, .refl, ?_, .refl⟩
    exact ⟨_, List.mem_cons_of_mem _ (List.mem_cons_of_mem _ List.mem_cons_self), rfl, rfl,
      .inr ⟨by simp, "y", _, rfl, rfl, rfl⟩⟩
  empty := fun h => absurd h hne

theorem unroll_equals_iff_copyMap : (copyMap (1, 3, 1)).Equals :=
  (unroll_equals_iff (valid_copyMap (by decide))).2
    ⟨.inl (by simp [copyMap, Covered]), passed_copyMap _ (by decide)⟩

/-- A descending range: `range(3, 2, -1)` holds one of its three values. -/
theorem not_equals_descending : (copyMap (3, 1, -1)).Valid ∧ ¬ (copyMap (3, 1, -1)).Equals := by
  refine ⟨valid_copyMap (by decide), fun h => ?_⟩
  exact absurd h.iterations (by decide)

end MapScope

end UnrollMaps
