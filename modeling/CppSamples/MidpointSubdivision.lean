/-
**Splitting the triangles of a surface at the midpoints of their edges.**

A surface is a list of triangles over a type of vertices.  It is closed and consistently oriented
when every directed edge occurs as often as its reverse.  Splitting replaces each triangle by four,
with a vertex for each of its edges that does not depend on the direction of the edge: only so do
the halves of an edge meet from both sides.

Nothing here mentions a particular program.

Main definitions:

* `Subdivision.Triangle`, `Subdivision.Triangle.edges`;
* `Subdivision.Balanced` — every directed edge occurs as often as its reverse;
* `Subdivision.split` — a triangle split at the vertices of its edges.

Main results:

* `Subdivision.balanced_iff_count` — the meaning of `Balanced`;
* `Subdivision.balanced_split` — **splitting keeps a surface closed**.
-/

import Mathlib.Data.List.Count
import Mathlib.Data.List.Perm.Basic
import Mathlib.Data.Prod.Basic
import Mathlib.Tactic.Common

set_option relaxedAutoImplicit false
set_option autoImplicit false

namespace Subdivision

open scoped List

variable {ι : Type*}

/-! ### Directed edges -/

/-- The corners of a triangle, in its orientation. -/
structure Triangle (ι : Type*) where
  a : ι
  b : ι
  c : ι

/-- The directed edges of a triangle. -/
def Triangle.edges (t : Triangle ι) : List (ι × ι) := [(t.a, t.b), (t.b, t.c), (t.c, t.a)]

/-- Every directed edge occurs as often as its reverse. -/
def Balanced (es : List (ι × ι)) : Prop := es ~ es.map Prod.swap

theorem balanced_iff_count [DecidableEq ι] {es : List (ι × ι)} :
    Balanced es ↔ ∀ u v, es.count (u, v) = es.count (v, u) := by
  have hcount : ∀ u v, (es.map Prod.swap).count (u, v) = es.count (v, u) := fun u v =>
    List.count_map_of_injective es Prod.swap Prod.swap_injective (v, u)
  rw [Balanced, List.perm_iff_count]
  constructor
  · exact fun h u v => (h (u, v)).trans (hcount u v)
  · rintro h ⟨u, v⟩
    exact (h u v).trans (hcount u v).symm

theorem Balanced.append {es es' : List (ι × ι)} (h : Balanced es) (h' : Balanced es') :
    Balanced (es ++ es') := by
  rw [Balanced, List.map_append]
  exact List.Perm.append h h'

theorem Balanced.perm {es es' : List (ι × ι)} (h : Balanced es) (hperm : es ~ es') :
    Balanced es' :=
  hperm.symm.trans (h.trans (hperm.map _))

theorem balanced_flatMap {τ : Type*} {f : τ → List (ι × ι)} {ts : List τ}
    (h : ∀ t ∈ ts, Balanced (f t)) : Balanced (ts.flatMap f) := by
  induction ts with
  | nil => exact List.Perm.refl _
  | cons t ts ih =>
      rw [List.flatMap_cons]
      exact (h t List.mem_cons_self).append (ih fun u hu => h u (List.mem_cons_of_mem _ hu))

/-! ### Splitting -/

variable (mid : ι → ι → ι)

/-- The four parts of a triangle. -/
def split (t : Triangle ι) : List (Triangle ι) :=
  [⟨t.a, mid t.a t.b, mid t.c t.a⟩, ⟨mid t.a t.b, t.b, mid t.b t.c⟩,
    ⟨mid t.c t.a, mid t.b t.c, t.c⟩, ⟨mid t.a t.b, mid t.b t.c, mid t.c t.a⟩]

/-- The halves of a directed edge. -/
def halves (e : ι × ι) : List (ι × ι) := [(e.1, mid e.1 e.2), (mid e.1 e.2, e.2)]

/-- The edges between the parts of a triangle, in both directions. -/
def inner (t : Triangle ι) : List (ι × ι) :=
  [(mid t.a t.b, mid t.c t.a), (mid t.c t.a, mid t.a t.b), (mid t.b t.c, mid t.a t.b),
    (mid t.a t.b, mid t.b t.c), (mid t.c t.a, mid t.b t.c), (mid t.b t.c, mid t.c t.a)]

variable {mid}

theorem length_flatMap_split (ts : List (Triangle ι)) :
    (ts.flatMap (split mid)).length = 4 * ts.length := by
  induction ts with
  | nil => rfl
  | cons t ts ih =>
      rw [List.flatMap_cons, List.length_append, ih, List.length_cons, Nat.mul_succ, Nat.add_comm]
      rfl

/-- The edges of the parts are the halves of the old edges and the inner ones. -/
theorem edges_split_perm (t : Triangle ι) :
    (split mid t).flatMap Triangle.edges ~ t.edges.flatMap (halves mid) ++ inner mid t := by
  classical
  rw [List.perm_iff_count]
  intro e
  simp only [split, Triangle.edges, halves, inner, List.flatMap_cons, List.flatMap_nil,
    List.append_nil, List.cons_append, List.nil_append, List.count_cons, List.count_nil]
  omega

theorem balanced_inner (t : Triangle ι) : Balanced (inner mid t) := by
  classical
  rw [Balanced, List.perm_iff_count]
  intro e
  simp only [inner, List.map_cons, List.map_nil, Prod.swap_prod_mk, List.count_cons,
    List.count_nil]
  omega

/-- The halves of a balanced list of edges are balanced. -/
theorem Balanced.halves (hmid : ∀ u v, mid u v = mid v u) {es : List (ι × ι)} (h : Balanced es) :
    Balanced (es.flatMap (halves mid)) := by
  have hswap : ∀ e, (Subdivision.halves mid e).map Prod.swap ~ Subdivision.halves mid e.swap := by
    intro e
    rw [Subdivision.halves, Subdivision.halves, Prod.fst_swap, Prod.snd_swap, hmid e.2 e.1]
    exact List.Perm.swap _ _ _
  calc es.flatMap (Subdivision.halves mid)
      ~ (es.map Prod.swap).flatMap (Subdivision.halves mid) := h.flatMap_right _
    _ = es.flatMap fun e => Subdivision.halves mid e.swap := List.flatMap_map _ _ _
    _ ~ es.flatMap fun e => (Subdivision.halves mid e).map Prod.swap :=
        List.Perm.flatMap_left es fun e _ => (hswap e).symm
    _ = (es.flatMap (Subdivision.halves mid)).map Prod.swap := List.map_flatMap.symm

/-- **Splitting keeps a surface closed.** -/
theorem balanced_split (hmid : ∀ u v, mid u v = mid v u) {ts : List (Triangle ι)}
    (h : Balanced (ts.flatMap Triangle.edges)) :
    Balanced ((ts.flatMap (split mid)).flatMap Triangle.edges) := by
  have hperm : (ts.flatMap Triangle.edges).flatMap (halves mid) ++ ts.flatMap (inner mid) ~
      (ts.flatMap (split mid)).flatMap Triangle.edges := by
    rw [List.flatMap_assoc, List.flatMap_assoc]
    refine (List.flatMap_append_perm ts _ _).trans ?_
    exact List.Perm.flatMap_left ts fun t _ => (edges_split_perm t).symm
  have hinner : Balanced (ts.flatMap (inner mid)) := balanced_flatMap fun t _ => balanced_inner t
  exact ((h.halves hmid).append hinner).perm hperm

end Subdivision
