import Mathlib.Data.List.Sort
import Mathlib.Data.Prod.Lex
import Tribuchet.Base.Greedy
import Tribuchet.Base.Table

/-! The order in which a build's inputs are staged (`order_by_references` in
`hub/relay/staging.rs`): references before referrers, the largest of the ready paths first, and
what a cycle holds up last, by name. A panic of the source is `none`. The order in which hash maps
are walked is a parameter; the heap is the list of what is in it. -/

namespace Tribuchet.Hub.Order

open Greedy Relation Table AList
open List hiding map_map

variable {P : Type} [LinearOrder P]

/-- The fields of an `Info` that are read. -/
structure Info (P : Type) where
  storePath : P
  references : List P
  narSize : ℕ
  deriving DecidableEq

/-- The orders in which the hash maps of a run are walked, one walk after the other. -/
structure Walks (P : Type) where
  walk : ℕ → List P → List P
  perm : ∀ n keys, (walk n keys).Perm keys

abbrev Nodes (P : Type) := AList fun _ : P => Info P

def nodesOf (infos : List (Info P)) : Nodes P := infos.foldl (fun nodes i => nodes.insert i.storePath i) ∅

structure Edges (P : Type) where
  indegree : AList fun _ : P => ℕ
  referrers : AList fun _ : P => List P

def Edges.into (e : Edges P) (r : P) : List P := (e.referrers.lookup r).getD []

def Edges.addReference (nodes : Nodes P) (path : P) (e : Edges P) (r : P) : Edges P :=
  if r ≠ path ∧ r ∈ nodes then
    { indegree := e.indegree.insert path ((e.indegree.lookup path).getD 0 + 1)
      referrers := e.referrers.insert r (e.into r ++ [path]) }
  else e

def references (nodes : Nodes P) (path : P) : List P := ((nodes.lookup path).map Info.references).getD []

def Edges.addPath (nodes : Nodes P) (e : Edges P) (path : P) : Edges P :=
  (references nodes path).foldl (addReference nodes path)
    { e with indegree := e.indegree.insert path ((e.indegree.lookup path).getD 0) }

/-- The loop over `nodes`. -/
def Edges.ofNodes (w : Walks P) (nodes : Nodes P) : Edges P := (w.walk 0 nodes.keys).foldl (addPath nodes) ⟨∅, ∅⟩

structure Kahn (P : Type) extends Edges P where
  ready : List (ℕ ×ₗ P)
  order : List P

/-- `nodes[p].msg.nar_size` with the path. -/
def entry (nodes : Nodes P) (p : P) : Option (ℕ ×ₗ P) := (nodes.lookup p).map fun i => toLex (i.narSize, p)

def Kahn.start (w : Walks P) (nodes : Nodes P) (e : Edges P) : Option (Kahn P) :=
  (((w.walk 1 e.indegree.keys).filter fun p => e.indegree.lookup p = some 0).mapM (entry nodes)).map fun ready =>
    ⟨e, ready, []⟩

/-- `BinaryHeap::pop`. -/
def pop (heap : List (ℕ ×ₗ P)) : Option ((ℕ ×ₗ P) × List (ℕ ×ₗ P)) := heap.max?.map fun m => (m, heap.erase m)

def Kahn.release (nodes : Nodes P) (k : Kahn P) (r : P) : Option (Kahn P) :=
  match k.indegree.lookup r with
  | none | some 0 => none
  | some (d + 1) =>
    let k := { k with indegree := k.indegree.insert r d }
    if d = 0 then (entry nodes r).map fun x => { k with ready := x :: k.ready } else some k

def Kahn.place (k : Kahn P) (ready : List (ℕ ×ₗ P)) (p : P) : Kahn P :=
  { k with referrers := k.referrers.erase p, ready := ready, order := k.order ++ [p] }

/-- The loop over the heap, `none` if the turns do not suffice. -/
def Kahn.drain (nodes : Nodes P) : ℕ → Kahn P → Option (Kahn P)
  | turns, k =>
    match pop k.ready with
    | none => some k
    | some (x, ready) =>
      match turns with
      | 0 => none
      | turns + 1 => ((k.into (ofLex x).2).foldlM (release nodes) (k.place ready (ofLex x).2)).bind (drain nodes turns)

def Kahn.rest (w : Walks P) (k : Kahn P) : List P :=
  ((w.walk 2 k.indegree.keys).filter fun p => decide (0 < (k.indegree.lookup p).getD 0)).insertionSort (· ≤ ·)

/-- `nodes.remove(&p).unwrap()` for each path. -/
def collect : Nodes P → List P → Option (List (Info P))
  | _, [] => some []
  | nodes, p :: ps =>
    match nodes.lookup p with
    | none => none
    | some i => (collect (nodes.erase p) ps).map (i :: ·)

def orderByReferences (w : Walks P) (infos : List (Info P)) : Option (List (Info P)) := do
  let nodes := nodesOf infos
  let k ← Kahn.start w nodes (Edges.ofNodes w nodes)
  let k ← k.drain nodes nodes.keys.length
  collect nodes (k.order ++ k.rest w)

/-! ### The graph -/

def listed (nodes : Nodes P) (p : P) : List P := (references nodes p).filter fun r => r ≠ p ∧ r ∈ nodes

def Refers (nodes : Nodes P) (p r : P) : Prop := r ∈ listed nodes p

def paths (nodes : Nodes P) : Finset P := nodes.keys.toFinset

def urgency (nodes : Nodes P) (p : P) : ℕ ×ₗ P := toLex (((nodes.lookup p).map Info.narSize).getD 0, p)

variable {nodes nodes' : Nodes P} {p q r : P} {e : Edges P} {k k' : Kahn P} {rs : List P} {w : Walks P}

theorem mem_paths : p ∈ paths nodes ↔ p ∈ nodes := by simp [paths, AList.mem_keys]

theorem listed_eq_nil (hp : p ∉ nodes) : listed nodes p = [] := by
  simp [listed, references, lookup_eq_none.mpr hp]

theorem mem_of_refers (h : Refers nodes p r) : p ∈ nodes := by
  by_contra hp
  rw [Refers, listed_eq_nil hp] at h
  cases h

theorem refers_ne (h : Refers nodes p r) : r ≠ p := (of_decide_eq_true (mem_filter.mp h).2).1

theorem entry_eq (hp : p ∈ nodes) : entry nodes p = some (urgency nodes p) := by
  obtain ⟨i, hi⟩ := exists_lookup hp
  simp [entry, urgency, hi]

theorem urgency_injective (h : urgency nodes p = urgency nodes q) : p = q := congrArg (fun x => (ofLex x).2) h

variable (nodes) in
theorem foldl_addReference (path : P) (refs : List P) {n : ℕ} (hn : e.indegree.lookup path = some n) :
    let e' := refs.foldl (Edges.addReference nodes path) e
    let new := refs.filter fun r => r ≠ path ∧ r ∈ nodes
    (∀ p, e'.indegree.lookup p = if p = path then some (n + new.length) else e.indegree.lookup p) ∧
      ∀ r p, (e'.into r).count p = (e.into r).count p + if p = path then new.count r else 0 := by
  induction refs generalizing e n with
  | nil =>
    constructor
    · intro p
      split_ifs with hp
      · rw [hp]
        exact hn
      · rfl
    · intro r p
      simp
  | cons r₀ refs ih =>
    by_cases hr : r₀ ≠ path ∧ r₀ ∈ nodes
    · have hadd : e.addReference nodes path r₀ =
          ⟨e.indegree.insert path (n + 1), e.referrers.insert r₀ (e.into r₀ ++ [path])⟩ := by
        simp [Edges.addReference, hr, hn]
      obtain ⟨hdeg, hinto⟩ := ih (e := e.addReference nodes path r₀) (n := n + 1) (by simp [hadd])
      have hnew : (r₀ :: refs).filter (fun r => r ≠ path ∧ r ∈ nodes) =
          r₀ :: refs.filter (fun r => r ≠ path ∧ r ∈ nodes) := filter_cons_of_pos (decide_eq_true hr)
      simp only [foldl_cons, hnew]
      constructor
      · intro p
        rw [hdeg p, hadd]
        split_ifs with hp
        · simp only [length_cons, Option.some.injEq]
          omega
        · simp only [lookup_insert_eq, if_neg hp]
      · intro r p
        have hone : ((e.addReference nodes path r₀).into r).count p =
            (e.into r).count p + if r = r₀ ∧ p = path then 1 else 0 := by
          rw [hadd]
          unfold Edges.into
          simp only [lookup_insert_eq]
          by_cases hrr : r = r₀
          · subst hrr
            by_cases hp : p = path
            · simp [hp]
            · have hp' : ¬ path = p := fun h => hp h.symm
              simp [hp, hp']
          · simp [hrr]
        rw [hinto r p, hone, count_cons]
        by_cases hp : p = path
        · simp only [hp, and_true, if_true, beq_iff_eq, eq_comm (a := r₀)]
          omega
        · simp [hp]
    · have hadd : e.addReference nodes path r₀ = e := if_neg hr
      have hnew : (r₀ :: refs).filter (fun r => r ≠ path ∧ r ∈ nodes) =
          refs.filter (fun r => r ≠ path ∧ r ∈ nodes) := filter_cons_of_neg (by simpa using hr)
      simp only [foldl_cons, hadd, hnew]
      exact ih hn

/-- What the tables say after the paths in `seen`. -/
structure Tables (nodes : Nodes P) (e : Edges P) (seen : List P) : Prop where
  indegree : ∀ p, e.indegree.lookup p = if p ∈ seen then some (listed nodes p).length else none
  referrers : ∀ r p, (e.into r).count p = if p ∈ seen then (listed nodes p).count r else 0

theorem Tables.addPath {seen : List P} (h : Tables nodes e seen) (hp : p ∉ seen) :
    Tables nodes (e.addPath nodes p) (p :: seen) := by
  have hnone : e.indegree.lookup p = none := by rw [h.indegree p, if_neg hp]
  obtain ⟨hdeg, hinto⟩ := foldl_addReference nodes
    (e := { e with indegree := e.indegree.insert p ((e.indegree.lookup p).getD 0) }) p (references nodes p)
    (n := 0) (by simp [hnone])
  constructor
  · intro q
    rw [Edges.addPath, hdeg q]
    by_cases hq : q = p
    · simp [hq, listed]
    · simp [hq, h.indegree q]
  · intro r q
    rw [Edges.addPath, hinto r q]
    change (e.into r).count q + _ = _
    rw [h.referrers r q]
    by_cases hq : q = p
    · simp [hq, hp, listed]
    · simp [hq]

theorem tables_ofNodes (w : Walks P) (nodes : Nodes P) : Tables nodes (Edges.ofNodes w nodes) nodes.keys := by
  have hfold : ∀ (l seen : List P) (e : Edges P), (l.reverse ++ seen).Nodup → Tables nodes e seen →
      Tables nodes (l.foldl (Edges.addPath nodes) e) (l.reverse ++ seen) := by
    intro l
    induction l with
    | nil => exact fun _ _ _ h => h
    | cons p l ih =>
      intro seen e hn h
      rw [reverse_cons, append_assoc, singleton_append] at hn ⊢
      have hp : p ∉ seen := (nodup_cons.mp (nodup_append.mp hn).2.1).1
      exact ih (p :: seen) _ hn (h.addPath hp)
  have hperm := w.perm 0 nodes.keys
  have h := hfold (w.walk 0 nodes.keys) [] ⟨∅, ∅⟩
    (by simpa using hperm.nodup_iff.mpr nodes.keys_nodup)
    ⟨by simp, fun r p => by simp [Edges.into]⟩
  have hmem : ∀ p, p ∈ (w.walk 0 nodes.keys).reverse ++ [] ↔ p ∈ nodes.keys := by
    intro p
    simp [hperm.mem_iff]
  constructor
  · intro p
    have hd := h.indegree p
    simp only [hmem] at hd
    exact hd
  · intro r p
    have hr := h.referrers r p
    simp only [hmem] at hr
    exact hr

/-! ### The loop -/

theorem countP_notMem_snoc {order : List P} (hp : p ∉ order) (l : List P) :
    l.countP (· ∉ order) = l.countP (· ∉ order ++ [p]) + l.count p := by
  induction l with
  | nil => rfl
  | cons q l ih =>
    rw [countP_cons, countP_cons, count_cons, ih]
    by_cases hq : q = p
    · subst hq
      simp [hp]
      omega
    · by_cases hm : q ∈ order <;> simp [hq, hm]
      omega

/-- The loop, while the referrers `rs` of the path placed last are yet to be released. -/
structure Inv (nodes : Nodes P) (k : Kahn P) (rs : List P) : Prop where
  scheduled : Scheduled (paths nodes) (Refers nodes) (urgency nodes) k.order
  indegree : ∀ p, k.indegree.lookup p =
    if p ∈ nodes then some ((listed nodes p).countP (· ∉ k.order) + rs.count p) else none
  referrers : ∀ r, r ∉ k.order → ∀ p, (k.into r).count p = (listed nodes p).count r
  ready : ∀ x, x ∈ k.ready ↔ ∃ p, x = urgency nodes p ∧ p ∉ k.order ∧ k.indegree.lookup p = some 0
  nodup : k.ready.Nodup
  pending : ∀ r ∈ rs, r ∈ nodes ∧ r ∉ k.order

theorem Inv.mem_ready (h : Inv nodes k []) : urgency nodes p ∈ k.ready ↔ Ready (paths nodes) (Refers nodes) k.order p := by
  have hzero : k.indegree.lookup p = some 0 ↔ p ∈ nodes ∧ ∀ r, Refers nodes p r → r ∈ k.order := by
    rw [h.indegree p]
    by_cases hp : p ∈ nodes
    · simp [hp, countP_eq_zero, Refers]
    · simp [hp]
  rw [h.ready, Ready, mem_paths]
  constructor
  · rintro ⟨q, hq, ho, hd⟩
    obtain rfl := urgency_injective hq
    exact ⟨(hzero.mp hd).1, ho, (hzero.mp hd).2⟩
  · rintro ⟨hp, ho, hr⟩
    exact ⟨p, rfl, ho, hzero.mpr ⟨hp, hr⟩⟩

theorem Inv.release (h : Inv nodes k (r :: rs)) : ∃ k', k.release nodes r = some k' ∧ k'.order = k.order ∧ Inv nodes k' rs := by
  obtain ⟨hr, ho⟩ := h.pending r mem_cons_self
  obtain ⟨d, hd⟩ : ∃ d, d = (listed nodes r).countP (· ∉ k.order) + rs.count r := ⟨_, rfl⟩
  have hl : k.indegree.lookup r = some (d + 1) := by
    rw [h.indegree r, if_pos hr, count_cons_self, hd, Nat.add_assoc]
  have hdeg : ∀ p, (k.indegree.insert r d).lookup p =
      if p ∈ nodes then some ((listed nodes p).countP (· ∉ k.order) + rs.count p) else none := by
    intro p
    rw [lookup_insert_eq]
    by_cases hp : p = r
    · simp [hp, hr, hd]
    · have hp' : ¬ r = p := fun heq => hp heq.symm
      simp [hp, h.indegree p, hp']
  have hother : ∀ p, p ≠ r → (k.indegree.insert r d).lookup p = k.indegree.lookup p := by
    intro p hp
    rw [lookup_insert_eq, if_neg hp]
  have hpend : ∀ q ∈ rs, q ∈ nodes ∧ q ∉ k.order := fun q hq => h.pending q (mem_cons_of_mem r hq)
  simp only [Kahn.release, hl]
  by_cases hz : d = 0
  · rw [if_pos hz, entry_eq hr]
    refine ⟨_, rfl, rfl, h.scheduled, hdeg, h.referrers, fun x => ?_, ?_, hpend⟩
    · rw [mem_cons, h.ready]
      constructor
      · rintro (rfl | ⟨p, rfl, hpo, hp⟩)
        · exact ⟨r, rfl, ho, by simp [hz]⟩
        · refine ⟨p, rfl, hpo, ?_⟩
          rw [hother p (by rintro rfl; simp [hl] at hp)]
          exact hp
      · rintro ⟨p, rfl, hpo, hp⟩
        by_cases hpr : p = r
        · exact .inl (by rw [hpr])
        · exact .inr ⟨p, rfl, hpo, by rw [← hother p hpr]; exact hp⟩
    · refine nodup_cons.mpr ⟨fun hm => ?_, h.nodup⟩
      obtain ⟨p, hp, -, hp0⟩ := (h.ready _).mp hm
      rw [← urgency_injective hp, hl] at hp0
      cases hp0
  · rw [if_neg hz]
    refine ⟨_, rfl, rfl, h.scheduled, hdeg, h.referrers, fun x => ?_, h.nodup, hpend⟩
    rw [h.ready]
    have hsame : ∀ p, k.indegree.lookup p = some 0 ↔ (k.indegree.insert r d).lookup p = some 0 := by
      intro p
      by_cases hpr : p = r
      · subst hpr
        simp [hl, hz]
      · rw [hother p hpr]
    simp only [hsame]

theorem Inv.releaseAll (h : Inv nodes k rs) : ∃ k', rs.foldlM (Kahn.release nodes) k = some k' ∧ k'.order = k.order ∧
    Inv nodes k' [] := by
  induction rs generalizing k with
  | nil => exact ⟨k, rfl, rfl, h⟩
  | cons r rs ih =>
    obtain ⟨k₁, hk₁, ho₁, h₁⟩ := h.release
    obtain ⟨k₂, hk₂, ho₂, h₂⟩ := ih h₁
    refine ⟨k₂, ?_, ho₂.trans ho₁, h₂⟩
    rw [foldlM_cons, hk₁]
    exact hk₂

theorem pop_eq_some {heap heap' : List (ℕ ×ₗ P)} {x : ℕ ×ₗ P} (h : pop heap = some (x, heap')) :
    x ∈ heap ∧ (∀ y ∈ heap, y ≤ x) ∧ heap' = heap.erase x := by
  obtain ⟨m, hm, heq⟩ := Option.map_eq_some_iff.mp h
  cases heq
  obtain ⟨hmem, hmax⟩ := max?_eq_some_iff.mp hm
  exact ⟨hmem, hmax, rfl⟩

theorem Inv.place (h : Inv nodes k []) {x : ℕ ×ₗ P} {ready : List (ℕ ×ₗ P)} (hx : pop k.ready = some (x, ready)) :
    Inv nodes (k.place ready (ofLex x).2) (k.into (ofLex x).2) := by
  obtain ⟨hmem, hmax, rfl⟩ := pop_eq_some hx
  obtain ⟨p, rfl, ho, hd⟩ := (h.ready x).mp hmem
  have hready : Ready (paths nodes) (Refers nodes) k.order p := h.mem_ready.mp hmem
  change Inv nodes (k.place (k.ready.erase (urgency nodes p)) p) (k.into p)
  constructor
  · exact h.scheduled.snoc hready fun q hq => hmax _ (h.mem_ready.mpr hq)
  · intro q
    change k.indegree.lookup q = _
    rw [h.indegree q, h.referrers p ho q]
    simp only [count_nil, Nat.add_zero, countP_notMem_snoc ho]
    rfl
  · intro r hr q
    have hr' : r ∉ k.order ∧ r ≠ p := by simpa [Kahn.place] using hr
    rw [← h.referrers r hr'.1 q]
    simp only [Edges.into, Kahn.place, lookup_erase_eq, if_neg hr'.2]
  · intro y
    change y ∈ k.ready.erase (urgency nodes p) ↔ ∃ q, y = urgency nodes q ∧ q ∉ k.order ++ [p] ∧ k.indegree.lookup q = some 0
    rw [h.nodup.mem_erase_iff, h.ready]
    constructor
    · rintro ⟨hne, q, rfl, hq, hq0⟩
      refine ⟨q, rfl, ?_, hq0⟩
      rw [mem_append, mem_singleton]
      rintro (hm | rfl)
      · exact hq hm
      · exact hne rfl
    · rintro ⟨q, rfl, hq, hq0⟩
      rw [mem_append, mem_singleton, not_or] at hq
      exact ⟨fun heq => hq.2 (urgency_injective heq), q, rfl, hq.1, hq0⟩
  · exact h.nodup.erase _
  · intro r hr
    have href : Refers nodes r p := by
      rw [Refers, ← count_pos_iff, ← h.referrers p ho r]
      exact count_pos_iff.mpr hr
    refine ⟨mem_of_refers href, ?_⟩
    change r ∉ k.order ++ [p]
    rw [mem_append, mem_singleton]
    rintro (hm | rfl)
    · -- a placed path has its references before it
      obtain ⟨l₁, l₂, hl⟩ := append_of_mem hm
      have hp := (h.scheduled l₁ r l₂ hl).1.2.2 p href
      exact ho (hl ▸ mem_append_left _ hp)
    · exact refers_ne href rfl

theorem Inv.order_length (h : Inv nodes k []) : k.order.length ≤ nodes.keys.length := by
  have hsub : k.order ⊆ nodes.keys := fun p hp => mem_keys.mp (mem_paths.mp (h.scheduled.mem hp))
  exact (h.scheduled.nodup.subperm hsub).length_le

theorem Inv.drain (turns : ℕ) (h : Inv nodes k []) (ht : nodes.keys.length ≤ turns + k.order.length) :
    ∃ k', k.drain nodes turns = some k' ∧ k'.ready = [] ∧ Inv nodes k' [] := by
  induction turns generalizing k with
  | zero =>
    have hnone : pop k.ready = none := by
      rw [← Option.not_isSome_iff_eq_none]
      intro hsome
      obtain ⟨⟨x, ready⟩, hx⟩ := Option.isSome_iff_exists.mp hsome
      obtain ⟨k', -, ho, hk'⟩ := (h.place hx).releaseAll
      have hlen := hk'.order_length
      rw [ho] at hlen
      simp only [Kahn.place, length_append, length_singleton] at hlen
      omega
    refine ⟨k, by unfold Kahn.drain; rw [hnone], ?_, h⟩
    exact max?_eq_none_iff.mp (Option.map_eq_none_iff.mp hnone)
  | succ turns ih =>
    unfold Kahn.drain
    cases hx : pop k.ready with
    | none => exact ⟨k, rfl, max?_eq_none_iff.mp (Option.map_eq_none_iff.mp hx), h⟩
    | some y =>
      obtain ⟨x, ready⟩ := y
      obtain ⟨k₁, hk₁, ho, h₁⟩ := (h.place hx).releaseAll
      obtain ⟨k', hk', hend, h'⟩ := ih h₁ (by
        rw [ho]
        simp only [Kahn.place, length_append, length_singleton]
        omega)
      refine ⟨k', ?_, hend, h'⟩
      simp only [hk₁, Option.bind_some]
      exact hk'

theorem start_inv (w : Walks P) (nodes : Nodes P) :
    ∃ k, Kahn.start w nodes (Edges.ofNodes w nodes) = some k ∧ k.order = [] ∧ Inv nodes k [] := by
  have ht := tables_ofNodes w nodes
  set e := Edges.ofNodes w nodes with he
  have hdeg : ∀ p, e.indegree.lookup p = if p ∈ nodes then some (listed nodes p).length else none := by
    intro p
    rw [ht.indegree p]
    simp only [AList.mem_keys]
  have hkeys : ∀ p, p ∈ w.walk 1 e.indegree.keys ↔ p ∈ nodes := by
    intro p
    rw [(w.perm 1 _).mem_iff, ← AList.mem_keys, ← AList.lookup_isSome, hdeg p]
    split_ifs <;> simp [*]
  have hmap : ∀ l : List P, (∀ p ∈ l, p ∈ nodes) → l.mapM (entry nodes) = some (l.map (urgency nodes)) := by
    intro l hl
    induction l with
    | nil => rfl
    | cons p l ih =>
      rw [mapM_cons, entry_eq (hl p mem_cons_self), ih fun q hq => hl q (mem_cons_of_mem p hq)]
      rfl
  rw [Kahn.start, hmap _ fun p hp => (hkeys p).mp (mem_of_mem_filter hp)]
  refine ⟨_, rfl, rfl, scheduled_nil, fun p => ?_, fun r _ p => ?_, fun x => ?_, ?_, by simp⟩
  · change e.indegree.lookup p = _
    rw [hdeg p]
    simp
  · change (e.into r).count p = _
    rw [ht.referrers r p]
    split_ifs with hp
    · rfl
    · rw [listed_eq_nil fun hm => hp (mem_keys.mp hm)]
      rfl
  · change x ∈ map _ _ ↔ ∃ p, x = urgency nodes p ∧ p ∉ [] ∧ e.indegree.lookup p = some 0
    simp only [mem_map, mem_filter, hkeys, decide_eq_true_eq, not_mem_nil, not_false_eq_true, true_and]
    constructor
    · rintro ⟨p, ⟨-, hp⟩, rfl⟩
      exact ⟨p, rfl, hp⟩
    · rintro ⟨p, rfl, hp⟩
      refine ⟨p, ⟨?_, hp⟩, rfl⟩
      by_contra hn
      rw [hdeg p, if_neg hn] at hp
      cases hp
  · refine Nodup.map (fun p q => urgency_injective) (Nodup.filter _ ?_)
    exact (w.perm 1 _).nodup_iff.mpr e.indegree.keys_nodup

/-! ### The result -/

/-- The paths of the result: a greedy schedule, and then what it leaves, by name. -/
structure Ordered (nodes : Nodes P) (placed rest : List P) : Prop where
  scheduled : Scheduled (paths nodes) (Refers nodes) (urgency nodes) placed
  complete : ∀ p, ¬ Ready (paths nodes) (Refers nodes) placed p
  sorted : rest.Pairwise (· ≤ ·)
  nodup : rest.Nodup
  mem_rest : ∀ p, p ∈ rest ↔ p ∈ nodes ∧ p ∉ placed

theorem Ordered.nodup_append {placed rest : List P} (h : Ordered nodes placed rest) : (placed ++ rest).Nodup := by
  refine List.nodup_append.mpr ⟨h.scheduled.nodup, h.nodup, ?_⟩
  rintro p hp q hq rfl
  exact ((h.mem_rest p).mp hq).2 hp

theorem Inv.ordered (h : Inv nodes k []) (hend : k.ready = []) (w : Walks P) : Ordered nodes k.order (k.rest w) := by
  have hcomplete : ∀ p, ¬ Ready (paths nodes) (Refers nodes) k.order p := by
    intro p hp
    have hm := h.mem_ready.mpr hp
    rw [hend] at hm
    cases hm
  refine ⟨h.scheduled, hcomplete, pairwise_insertionSort _ _, ?_, fun p => ?_⟩
  · refine (perm_insertionSort _ _).nodup_iff.mpr (Nodup.filter _ ?_)
    exact (w.perm 2 _).nodup_iff.mpr k.indegree.keys_nodup
  · rw [Kahn.rest, (perm_insertionSort _ _).mem_iff, mem_filter, (w.perm 2 _).mem_iff, ← AList.mem_keys,
      ← lookup_isSome, h.indegree p]
    by_cases hp : p ∈ nodes
    · simp only [hp, if_true, Option.isSome_some, true_and, count_nil, Nat.add_zero, Option.getD_some,
        decide_eq_true_eq, countP_pos_iff]
      constructor
      · rintro ⟨r, hr, hro⟩ ho
        -- the references of a placed path are placed
        obtain ⟨l₁, l₂, hl⟩ := append_of_mem ho
        have hrl := (h.scheduled l₁ p l₂ hl).1.2.2 r hr
        exact hro (hl ▸ mem_append_left _ hrl)
      · intro ho
        by_contra hno
        refine hcomplete p ⟨mem_paths.mpr hp, ho, fun r hr => ?_⟩
        by_contra hro
        exact hno ⟨r, hr, hro⟩
    · simp [hp]

theorem Ordered.unique {placed rest placed' rest' : List P} (h : Ordered nodes placed rest)
    (h' : Ordered nodes' placed' rest') (hn : ∀ p, nodes'.lookup p = nodes.lookup p) : placed' ++ rest' = placed ++ rest := by
  have hmem : ∀ p, p ∈ nodes' ↔ p ∈ nodes := by
    intro p
    rw [← lookup_isSome, hn p, lookup_isSome]
  have hpaths : paths nodes' = paths nodes := Finset.ext fun p => by rw [mem_paths, mem_paths, hmem]
  have hrefers : Refers nodes' = Refers nodes := by
    funext p r
    simp only [Refers, listed, references, hn, hmem]
  have hurgency : urgency nodes' = urgency nodes := by
    funext p
    simp only [urgency, hn]
  have hsched := h'.scheduled
  have hcomplete := h'.complete
  rw [hpaths, hrefers, hurgency] at hsched
  rw [hpaths, hrefers] at hcomplete
  have hplaced : placed' = placed :=
    hsched.unique (fun p _ q _ => urgency_injective) h.scheduled hcomplete h.complete
  have hrest : rest'.Perm rest := by
    refine (perm_ext_iff_of_nodup h'.nodup h.nodup).mpr fun p => ?_
    rw [h'.mem_rest, h.mem_rest, hmem, hplaced]
  rw [hplaced, hrest.eq_of_pairwise' h'.sorted h.sorted]

theorem collect_eq_some {ps : List P} (hps : ps.Nodup) (hm : ∀ p ∈ ps, p ∈ nodes)
    (hpath : ∀ p i, nodes.lookup p = some i → i.storePath = p) :
    ∃ out, collect nodes ps = some out ∧ out.map Info.storePath = ps ∧ ∀ i ∈ out, nodes.lookup i.storePath = some i := by
  induction ps generalizing nodes with
  | nil => exact ⟨[], rfl, rfl, by simp⟩
  | cons p ps ih =>
    obtain ⟨hp, hps⟩ := nodup_cons.mp hps
    obtain ⟨i, hi⟩ := exists_lookup (hm p mem_cons_self)
    have hi' := hpath p i hi
    have herase : ∀ q, q ≠ p → (nodes.erase p).lookup q = nodes.lookup q := by
      intro q hq
      rw [lookup_erase_eq, if_neg hq]
    have hmem : ∀ q ∈ ps, q ∈ nodes.erase p := fun q hq =>
      mem_erase.mpr ⟨fun heq => hp (heq ▸ hq), hm q (mem_cons_of_mem p hq)⟩
    obtain ⟨out, hout, hmap, hlook⟩ := ih hps hmem
      (fun q j hj => by
        rw [lookup_erase_eq] at hj
        split_ifs at hj
        exact hpath q j hj)
    refine ⟨i :: out, by simp [collect, hi, hout], by simp [hmap, hi'], ?_⟩
    rw [forall_mem_cons]
    refine ⟨by rw [hi', hi], fun j hj => ?_⟩
    have hjp : j.storePath ≠ p := by
      rintro heq
      exact hp (heq ▸ hmap ▸ mem_map_of_mem hj)
    rw [← herase _ hjp]
    exact hlook j hj

theorem lookup_nodesOf (infos : List (Info P)) (p : P) :
    (nodesOf infos).lookup p = infos.reverse.find? fun i => i.storePath = p := by
  have hfold : ∀ (infos : List (Info P)) (nodes : Nodes P),
      (infos.foldl (fun nodes i => nodes.insert i.storePath i) nodes).lookup p =
        (infos.reverse.find? fun i => i.storePath = p).or (nodes.lookup p) := by
    intro infos
    induction infos with
    | nil => intro nodes; simp
    | cons i infos ih =>
      intro nodes
      rw [foldl_cons, ih, lookup_insert_eq, reverse_cons, find?_append, Option.or_assoc]
      by_cases hi : p = i.storePath
      · simp [hi]
      · have hi' : ¬ i.storePath = p := fun heq => hi heq.symm
        simp [hi, hi']
  rw [nodesOf, hfold]
  simp

theorem storePath_of_lookup {infos : List (Info P)} {i : Info P} (h : (nodesOf infos).lookup p = some i) :
    i.storePath = p ∧ i ∈ infos := by
  rw [lookup_nodesOf] at h
  have hp : decide (i.storePath = p) = true := find?_some (p := fun i : Info P => decide (i.storePath = p)) h
  exact ⟨of_decide_eq_true hp, mem_reverse.mp (mem_of_find?_eq_some h)⟩

theorem mem_nodesOf {infos : List (Info P)} : p ∈ nodesOf infos ↔ p ∈ infos.map Info.storePath := by
  rw [← lookup_isSome, lookup_nodesOf, find?_isSome]
  simp

theorem lookup_nodesOf_perm {infos infos' : List (Info P)} (h : infos'.Perm infos) (hd : (infos.map Info.storePath).Nodup)
    (p : P) : (nodesOf infos').lookup p = (nodesOf infos).lookup p := by
  have hspec : ∀ {infos : List (Info P)} {i : Info P}, (infos.map Info.storePath).Nodup →
      ((nodesOf infos).lookup p = some i ↔ i ∈ infos ∧ i.storePath = p) := by
    intro infos i hd
    constructor
    · intro hi
      exact (storePath_of_lookup hi).symm
    · rintro ⟨hm, hi⟩
      have hp : p ∈ nodesOf infos := mem_nodesOf.mpr (hi ▸ mem_map_of_mem hm)
      obtain ⟨j, hj⟩ := exists_lookup hp
      obtain ⟨hjp, hjm⟩ := storePath_of_lookup hj
      rw [hj, inj_on_of_nodup_map hd hjm hm (hjp.trans hi.symm)]
  apply Option.ext
  intro i
  rw [hspec ((h.map _).nodup_iff.mpr hd), hspec hd, h.mem_iff]

theorem orderByReferences_eq (w : Walks P) (infos : List (Info P)) :
    ∃ out placed rest, orderByReferences w infos = some out ∧ Ordered (nodesOf infos) placed rest ∧
      out.map Info.storePath = placed ++ rest ∧ ∀ i ∈ out, (nodesOf infos).lookup i.storePath = some i := by
  obtain ⟨k, hk, ho, h⟩ := start_inv w (nodesOf infos)
  obtain ⟨k', hk', hend, h'⟩ := h.drain (nodesOf infos).keys.length (Nat.le_add_right _ _)
  have hord := h'.ordered hend w
  have hmem : ∀ p ∈ k'.order ++ k'.rest w, p ∈ nodesOf infos := by
    intro p hp
    rcases mem_append.mp hp with hp | hp
    · exact mem_paths.mp (hord.scheduled.mem hp)
    · exact ((hord.mem_rest p).mp hp).1
  obtain ⟨out, hout, hmap, hlook⟩ := collect_eq_some hord.nodup_append hmem fun p i hi => (storePath_of_lookup hi).1
  refine ⟨out, k'.order, k'.rest w, ?_, hord, hmap, hlook⟩
  simp only [orderByReferences, hk, Option.bind_eq_bind, Option.bind_some, hk']
  exact hout

/-- All references of `i` to other paths of the list are among `placed`. -/
def Satisfied (infos placed : List (Info P)) (i : Info P) : Prop :=
  ∀ r ∈ i.references, r ≠ i.storePath → r ∈ infos.map Info.storePath → r ∈ placed.map Info.storePath

instance (infos placed : List (Info P)) (i : Info P) : Decidable (Satisfied infos placed i) :=
  inferInstanceAs (Decidable (∀ r ∈ i.references, _))

theorem satisfied_iff {infos placed : List (Info P)} {i : Info P} (hi : (nodesOf infos).lookup i.storePath = some i) :
    Satisfied infos placed i ↔ ∀ r, Refers (nodesOf infos) i.storePath r → r ∈ placed.map Info.storePath := by
  simp only [Satisfied, Refers, listed, references, hi, Option.map_some, Option.getD_some, mem_filter,
    decide_eq_true_eq, mem_nodesOf, and_imp]

theorem Ordered.placed_of_not_tangled {placed rest l₁ l₂ : List P} (h : Ordered nodes placed rest)
    (heq : placed ++ rest = l₁ ++ p :: l₂) (hp : ¬ Tangled (Refers nodes) p) : ∃ m, placed = l₁ ++ p :: m := by
  have hmem : p ∈ placed := by
    by_contra hno
    have hrest : p ∈ rest := by
      have hm : p ∈ placed ++ rest := heq ▸ mem_append_right _ mem_cons_self
      exact (mem_append.mp hm).resolve_left hno
    refine hp (tangled_of_not_ready (fun q _ r hr => ?_) h.complete (mem_paths.mpr ((h.mem_rest p).mp hrest).1) hno)
    exact mem_paths.mpr (of_decide_eq_true (mem_filter.mp hr).2).2
  obtain ⟨m₁, m₂, hm⟩ := append_of_mem hmem
  have hnodup := h.nodup_append
  have hsplit : m₁ ++ p :: (m₂ ++ rest) = l₁ ++ p :: l₂ := by
    rw [← heq, hm]
    simp
  rw [hm, append_assoc, cons_append] at hnodup
  obtain ⟨-, hafter, hbefore⟩ := List.nodup_append.mp hnodup
  have hm₁ : p ∉ m₁ := fun hp₁ => hbefore p hp₁ p List.mem_cons_self rfl
  obtain ⟨rfl, -⟩ := (append_cons_inj_of_notMem hm₁ (nodup_cons.mp hafter).1).mp hsplit
  exact ⟨m₂, hm⟩

/-- Every path of the list is in the result once, whatever the list refers to. Neither the order of
the list nor that of the hash maps matters. A path that no cycle holds up comes after all its
references and before every path that one does; and none of the paths that could have been placed
in its stead is larger. -/
theorem ordered_by_references (w : Walks P) (infos : List (Info P)) :
    ∃ out, orderByReferences w infos = some out ∧ (out.map Info.storePath).Nodup ∧
      (∀ p, p ∈ out.map Info.storePath ↔ p ∈ infos.map Info.storePath) ∧ (∀ i ∈ out, i ∈ infos) ∧
      ((infos.map Info.storePath).Nodup →
        ∀ (w' : Walks P) infos', infos'.Perm infos → orderByReferences w' infos' = some out) ∧
      ∀ l₁ i l₂, out = l₁ ++ i :: l₂ → ¬ Tangled (Refers (nodesOf infos)) i.storePath →
        Satisfied infos l₁ i ∧ (∀ j ∈ l₁, ¬ Tangled (Refers (nodesOf infos)) j.storePath) ∧
          ∀ j ∈ l₂, Satisfied infos l₁ j → j.narSize ≤ i.narSize := by
  obtain ⟨out, placed, rest, hout, hord, hmap, hlook⟩ := orderByReferences_eq w infos
  have hmem : ∀ p, p ∈ placed ++ rest ↔ p ∈ nodesOf infos := by
    intro p
    rw [mem_append, hord.mem_rest p]
    by_cases hp : p ∈ placed
    · simp [hp, mem_paths.mp (hord.scheduled.mem hp)]
    · simp [hp]
  refine ⟨out, hout, ?_, fun p => ?_, fun i hi => (storePath_of_lookup (hlook i hi)).2, fun hd w' infos' hperm => ?_,
    fun l₁ i l₂ hl hi => ?_⟩
  · rw [hmap]
    exact hord.nodup_append
  · rw [hmap, hmem, mem_nodesOf]
  · obtain ⟨out', placed', rest', hout', hord', hmap', hlook'⟩ := orderByReferences_eq w' infos'
    have hsame := lookup_nodesOf_perm hperm hd
    have hpaths : out'.map Info.storePath = out.map Info.storePath := by
      rw [hmap', hmap]
      exact hord.unique hord' hsame
    -- the infos are those of the paths
    have hof : ∀ {o : List (Info P)}, (∀ i ∈ o, (nodesOf infos).lookup i.storePath = some i) →
        o.map some = (o.map Info.storePath).map (nodesOf infos).lookup := by
      intro o ho
      rw [List.map_map]
      exact map_congr_left fun i hi => (ho i hi).symm
    have heq : out'.map some = out.map some := by
      rw [hof hlook, hof fun i hi => hsame _ ▸ hlook' i hi, hpaths]
    rw [hout', map_injective_iff.mpr (Option.some_injective _) heq]
  · have hsplit : placed ++ rest = l₁.map Info.storePath ++ i.storePath :: l₂.map Info.storePath := by
      rw [← hmap, hl]
      simp
    obtain ⟨m, hm⟩ := hord.placed_of_not_tangled hsplit hi
    obtain ⟨hready, hmax⟩ := hord.scheduled _ _ _ hm
    have hin : ∀ j, j ∈ l₁ ∨ j = i ∨ j ∈ l₂ → (nodesOf infos).lookup j.storePath = some j := by
      intro j hj
      exact hlook j (by simpa [hl] using hj)
    refine ⟨(satisfied_iff (hin i (.inr (.inl rfl)))).mpr hready.2.2, fun j hj => ?_, fun j hj hsat => ?_⟩
    · exact hord.scheduled.not_tangled (hm ▸ mem_append_left _ (mem_map_of_mem hj))
    · have hj' := hin j (.inr (.inr hj))
      have hi' := hin i (.inr (.inl rfl))
      have hnot : j.storePath ∉ l₁.map Info.storePath := by
        have hnodup := hord.nodup_append
        rw [hsplit] at hnodup
        intro hjl
        exact (nodup_append.mp hnodup).2.2 _ hjl _ (mem_cons_of_mem _ (mem_map_of_mem hj)) rfl
      have hle := hmax j.storePath ⟨mem_paths.mpr (mem_of_lookup hj'), hnot,
        (satisfied_iff hj').mp hsat⟩
      simp only [urgency, hi', hj', Option.map_some, Option.getD_some, Prod.Lex.toLex_le_toLex] at hle
      rcases hle with hlt | ⟨heq, -⟩
      · exact hlt.le
      · exact heq.le

/-- Two paths refer to each other and a larger one refers to the first: with the first placed, the
smaller of the other two is next. -/
theorem cycle_member_before_larger : ∃ (w : Walks ℕ) (infos l₁ l₂ : List (Info ℕ)) (i j : Info ℕ),
    orderByReferences w infos = some (l₁ ++ i :: l₂) ∧ j ∈ l₂ ∧ Satisfied infos l₁ i ∧ Satisfied infos l₁ j ∧
      i.narSize < j.narSize := by
  refine ⟨⟨fun _ l => l, fun _ l => .refl l⟩, [⟨0, [1], 1⟩, ⟨1, [0], 1⟩, ⟨2, [0], 9⟩], [⟨0, [1], 1⟩], [⟨2, [0], 9⟩],
    ⟨1, [0], 1⟩, ⟨2, [0], 9⟩, ?_⟩
  decide +kernel

end Tribuchet.Hub.Order
