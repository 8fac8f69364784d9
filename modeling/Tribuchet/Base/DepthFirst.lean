import Mathlib.Data.Finset.Card
import Mathlib.Logic.Relation

/-! Depth-first walks of a graph. A walk enters the nodes it is given one after the other, from each
of them the nodes it refers to, and none twice; a node is listed when everything below it has been.
If the nodes that can be reached are finitely many, there is such a walk. It lists exactly these
nodes, once, and each after the nodes it refers to, unless these refer back to it. -/

namespace Tribuchet.DepthFirst

open Relation List
open Finset hiding cons mem_cons

variable {K : Type*} [DecidableEq K]

/-- The nodes of `todo` are entered, unless they have been `seen`, and `out` is listed. What is
entered from a node may depend on what was seen by then. -/
inductive Walk (next : Finset K → K → List K) : Finset K → List K → List K → Prop
  | nil {seen : Finset K} : Walk next seen [] []
  | skip {seen : Finset K} {k : K} {todo out : List K} (hk : k ∈ seen) (rest : Walk next seen todo out) :
      Walk next seen (k :: todo) out
  | enter {seen : Finset K} {k : K} {todo below after : List K} (hk : k ∉ seen)
      (inner : Walk next (insert k seen) (next (insert k seen) k) below)
      (rest : Walk next (insert k seen ∪ below.toFinset) todo after) : Walk next seen (k :: todo) (below ++ k :: after)

/-- From a node the nodes it refers to are entered. Those that were seen may be left out. -/
structure Follows (edge : K → K → Prop) (next : Finset K → K → List K) : Prop where
  sound : ∀ {seen k r}, r ∈ next seen k → edge k r
  complete : ∀ {seen k r}, edge k r → r ∈ seen ∨ r ∈ next seen k

variable {edge : K → K → Prop} {next : Finset K → K → List K} {seen : Finset K} {todo out : List K}

/-- What was seen once the node and what is after it are listed. -/
theorem union_listed (seen : Finset K) (k : K) (below after : List K) :
    seen ∪ (below ++ k :: after).toFinset = insert k seen ∪ below.toFinset ∪ after.toFinset := by
  ext x
  simp only [Finset.mem_union, Finset.mem_insert, mem_toFinset, mem_append, mem_cons]
  tauto

namespace Walk

variable (h : Walk next seen todo out)

include h

theorem append {todo' out' : List K} (h' : Walk next (seen ∪ out.toFinset) todo' out') :
    Walk next seen (todo ++ todo') (out ++ out') := by
  induction h with
  | nil => simpa using h'
  | skip hk rest ih => exact .skip hk (ih h')
  | @enter seen k todo below after hk inner rest ihi ihr =>
    rw [cons_append, append_assoc, cons_append]
    exact .enter hk inner (ihr (union_listed seen k below after ▸ h'))

theorem fresh : ∀ x ∈ out, x ∉ seen := by
  induction h with
  | nil => simp
  | skip hk rest ih => exact ih
  | enter hk inner rest ihi ihr =>
    intro x hx hseen
    rcases mem_append.mp hx with hx | hx
    · exact ihi x hx (mem_insert_of_mem hseen)
    · rcases mem_cons.mp hx with rfl | hx
      · exact hk hseen
      · exact ihr x hx (mem_union_left _ (mem_insert_of_mem hseen))

theorem nodup : out.Nodup := by
  induction h with
  | nil => exact nodup_nil
  | skip hk rest ih => exact ih
  | @enter seen k todo below after hk inner rest ihi ihr =>
    have hbelow : k ∉ below := fun h => inner.fresh k h (mem_insert_self k seen)
    have hafter : k ∉ after := fun h => rest.fresh k h (mem_union_left _ (mem_insert_self k seen))
    refine nodup_append.mpr ⟨ihi, nodup_cons.mpr ⟨hafter, ihr⟩, ?_⟩
    rintro x hx y hy rfl
    rcases mem_cons.mp hy with rfl | hy
    · exact hbelow hx
    · exact rest.fresh x hy (mem_union_right _ (mem_toFinset.mpr hx))

theorem entered : ∀ k ∈ todo, k ∈ seen ∨ k ∈ out := by
  induction h with
  | nil => simp
  | skip hk rest ih =>
    intro x hx
    rcases mem_cons.mp hx with rfl | hx
    · exact .inl hk
    · exact ih x hx
  | enter hk inner rest ihi ihr =>
    intro x hx
    rcases mem_cons.mp hx with rfl | hx
    · exact .inr (by simp)
    · have hx := ihr x hx
      simp only [Finset.mem_union, Finset.mem_insert, mem_toFinset] at hx
      simp only [mem_append, mem_cons]
      tauto

omit h

variable (f : Follows edge next)

include f

theorem reached (h : Walk next seen todo out) : ∀ x ∈ out, ∃ k ∈ todo, ReflTransGen edge k x := by
  induction h with
  | nil => simp
  | skip hk rest ih =>
    intro x hx
    obtain ⟨k, hk, hreach⟩ := ih x hx
    exact ⟨k, mem_cons_of_mem _ hk, hreach⟩
  | @enter seen k todo below after hk inner rest ihi ihr =>
    intro x hx
    rcases mem_append.mp hx with hx | hx
    · obtain ⟨r, hr, hreach⟩ := ihi x hx
      exact ⟨k, mem_cons_self, .head (f.sound hr) hreach⟩
    · rcases mem_cons.mp hx with rfl | hx
      · exact ⟨x, mem_cons_self, .refl⟩
      · obtain ⟨r, hr, hreach⟩ := ihr x hx
        exact ⟨r, mem_cons_of_mem _ hr, hreach⟩

/-- What the node refers to was seen before, is below it, or is the node itself. -/
theorem own {k r : K} {below : List K}
    (h : Walk next (insert k seen) (next (insert k seen) k) below) (hr : edge k r) : r ∈ seen ∨ r ∈ below ∨ r = k := by
  have hentered : r ∈ insert k seen ∨ r ∈ below := by
    rcases f.complete hr with hseen | hnext
    · exact .inl hseen
    · exact h.entered r hnext
  rw [mem_insert] at hentered
  tauto

omit f in
omit [DecidableEq K] in
theorem cons_split {below after l₁ l₂ : List K} {k x : K} (h : below ++ k :: after = l₁ ++ x :: l₂) :
    (∃ m, below = l₁ ++ x :: m) ∨ (l₁ = below ∧ x = k) ∨ ∃ m, l₁ = below ++ k :: m ∧ after = m ++ x :: l₂ := by
  rcases append_eq_append_iff.mp h with ⟨m, rfl, hm⟩ | ⟨m, rfl, hm⟩
  · cases m with
    | nil => exact .inr (.inl ⟨by simp, (cons.inj hm).1.symm⟩)
    | cons y m =>
      obtain ⟨rfl, rfl⟩ := cons.inj hm
      exact .inr (.inr ⟨m, rfl, rfl⟩)
  · cases m with
    | nil => exact .inr (.inl ⟨by simp, (cons.inj hm).1⟩)
    | cons y m =>
      obtain ⟨rfl, rfl⟩ := cons.inj hm
      exact .inl ⟨m, rfl⟩

/-- What a listed node refers to was seen before, is listed before it, or refers back to it. -/
theorem before (h : Walk next seen todo out) {l₁ l₂ : List K} {x r : K}
    (hout : out = l₁ ++ x :: l₂) (hr : edge x r) : r ∈ seen ∨ r ∈ l₁ ∨ (r ∈ out ∧ ReflTransGen edge r x) := by
  induction h generalizing l₁ l₂ with
  | nil => simp at hout
  | skip hk rest ih => exact ih hout
  | @enter seen k todo below after hk inner rest ihi ihr =>
    rcases cons_split hout with ⟨m, rfl⟩ | ⟨rfl, rfl⟩ | ⟨m, rfl, rfl⟩
    · rcases ihi rfl with hseen | hpre | ⟨hmem, hback⟩
      · rcases mem_insert.mp hseen with rfl | hseen
        · obtain ⟨c, hc, hreach⟩ := inner.reached f x (by simp)
          exact .inr (.inr ⟨by simp, .head (f.sound hc) hreach⟩)
        · exact .inl hseen
      · exact .inr (.inl hpre)
      · exact .inr (.inr ⟨mem_append_left _ hmem, hback⟩)
    · rcases inner.own f hr with hseen | hbelow | rfl
      · exact .inl hseen
      · exact .inr (.inl hbelow)
      · exact .inr (.inr ⟨by simp, .refl⟩)
    · rcases ihr rfl with hseen | hpre | ⟨hmem, hback⟩
      · simp only [Finset.mem_union, Finset.mem_insert, mem_toFinset] at hseen
        simp only [mem_append, mem_cons]
        tauto
      · exact .inr (.inl (by simp [hpre]))
      · exact .inr (.inr ⟨mem_append_right _ (mem_cons_of_mem _ hmem), hback⟩)

/-- A walk that starts afresh lists what can be reached. -/
theorem mem_iff (h : Walk next ∅ todo out) {x : K} :
    x ∈ out ↔ ∃ k ∈ todo, ReflTransGen edge k x := by
  constructor
  · exact h.reached f x
  · rintro ⟨k, hk, hreach⟩
    induction hreach with
    | refl =>
      rcases h.entered k hk with hseen | hout
      · cases hseen
      · exact hout
    | tail hreach hr ih =>
      obtain ⟨l₁, l₂, heq⟩ := append_of_mem ih
      rcases h.before f heq hr with hseen | hpre | ⟨hmem, -⟩
      · cases hseen
      · exact heq ▸ mem_append_left _ hpre
      · exact hmem

omit f

end Walk

/-- A node that is entered leaves fewer nodes to enter. -/
theorem card_sdiff_lt {nodes seen more : Finset K} {k : K} (hk : k ∈ nodes) (hseen : k ∉ seen) (hmore : insert k seen ⊆ more) :
    (nodes \ more).card < (nodes \ seen).card := by
  apply card_lt_card
  refine ⟨sdiff_subset_sdiff (Subset.refl nodes) ((subset_insert k seen).trans hmore), fun h => ?_⟩
  have : k ∈ nodes \ more := h (mem_sdiff.mpr ⟨hk, hseen⟩)
  exact (mem_sdiff.mp this).2 (hmore (mem_insert_self k seen))

theorem exists_walk (f : Follows edge next) {nodes : Finset K} (hclosed : ∀ k ∈ nodes, ∀ r, edge k r → r ∈ nodes)
    (seen : Finset K) (todo : List K) (htodo : ∀ k ∈ todo, k ∈ nodes) : ∃ out, Walk next seen todo out := by
  -- on the nodes that were not seen, and then on the list
  induction hn : (nodes \ seen).card using Nat.strong_induction_on generalizing seen todo with
  | _ n ih =>
  subst hn
  induction todo with
  | nil => exact ⟨[], .nil⟩
  | cons k todo iht =>
    have hnodes := forall_mem_cons.mp htodo
    by_cases hk : k ∈ seen
    · obtain ⟨out, hout⟩ := iht hnodes.2
      exact ⟨out, .skip hk hout⟩
    · have hnext : ∀ r ∈ next (insert k seen) k, r ∈ nodes := fun r hr => hclosed k hnodes.1 r (f.sound hr)
      obtain ⟨below, hbelow⟩ := ih _ (card_sdiff_lt hnodes.1 hk (Subset.refl _)) (insert k seen) _ hnext rfl
      obtain ⟨after, hafter⟩ := ih _ (card_sdiff_lt hnodes.1 hk subset_union_left)
        (insert k seen ∪ below.toFinset) todo hnodes.2 rfl
      exact ⟨_, .enter hk hbelow hafter⟩

end Tribuchet.DepthFirst
