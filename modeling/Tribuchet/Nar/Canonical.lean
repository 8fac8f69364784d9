import Tribuchet.Nar.Pieces

/-! Packing is canonical: the bytes say which tree was packed and depend on nothing else, neither
on the order in which a directory is listed nor on how bodies are read. -/

namespace Tribuchet.Nar

open ByteStrings Feeding List Node

def collect : Callback Piece Bytes IoError := fun piece out => (.ok true, out ++ piece.data)

def toVec (reads : Path → ℕ → ℕ) (root : Node) : Except IoError Bytes :=
  let (result, out) := pack collect reads root []
  result.map fun _ => out

theorem toVec_eq {root : Node} (h : root.WellFormed) (reads : Path → ℕ → ℕ) :
    toVec reads root = .ok root.tree.nar := by
  have hfeed := feed_of_forall (f := collect) (fun _ _ => rfl) (root.pieces reads) []
  have hfold : (root.pieces reads).foldl (fun out piece => out ++ piece.data) [] = root.tree.nar := by
    rw [foldl_append_eq_append, nil_append, ← flatMap_def, pieces_data h]
  rw [toVec, pack_feed h, hfeed, hfold]
  rfl

/-! ### The same tree -/

mutual
/-- The same names, targets, contents and executable bits; directories may be listed in another
order. -/
inductive Same : Node → Node → Prop
  | regular {mode mode' size : ℕ} {contents : Bytes} : executable mode = executable mode' →
      Same (.regular mode size contents) (.regular mode' size contents)
  | symlink {target : Bytes} : Same (.symlink target) (.symlink target)
  | directory {listing a b listing' : List (Bytes × Node)} : listing.Perm a → SameListing a b → b.Perm listing' →
      Same (.directory listing) (.directory listing')
inductive SameListing : List (Bytes × Node) → List (Bytes × Node) → Prop
  | nil : SameListing [] []
  | cons {name : Bytes} {n n' : Node} {l l' : List (Bytes × Node)} : Same n n' → SameListing l l' →
      SameListing ((name, n) :: l) ((name, n') :: l')
end

section

variable {α : Type} {l l' : List (Bytes × α)}

theorem sortByName_perm (l : List (Bytes × α)) : (sortByName l).Perm l := perm_insertionSort _ l

theorem sortByName_pairwise (h : (l.map Prod.fst).Nodup) : (sortByName l).Pairwise fun a b => key a.1 < key b.1 := by
  have hle : (sortByName l).Pairwise fun a b => key a.1 ≤ key b.1 := by
    have : Std.Total fun a b : Bytes × α => key a.1 ≤ key b.1 := ⟨fun _ _ => le_total _ _⟩
    have : IsTrans (Bytes × α) fun a b => key a.1 ≤ key b.1 := ⟨fun _ _ _ => le_trans⟩
    exact pairwise_insertionSort _ l
  have hne : (sortByName l).Pairwise fun a b => a.1 ≠ b.1 := by
    rw [← pairwise_map (f := Prod.fst)]
    exact ((sortByName_perm l).map Prod.fst).nodup_iff.mpr h
  exact (hle.and hne).imp fun h => lt_of_le_of_ne h.1 fun heq => h.2 (key_injective heq)

theorem sortByName_congr (h : (l.map Prod.fst).Nodup) (hp : l.Perm l') : sortByName l = sortByName l' := by
  have h' : (l'.map Prod.fst).Nodup := (hp.map Prod.fst).nodup_iff.mp h
  have hperm : (sortByName l).Perm (sortByName l') := (sortByName_perm l).trans (hp.trans (sortByName_perm l').symm)
  refine hperm.eq_of_pairwise ?_ (sortByName_pairwise h) (sortByName_pairwise h')
  intro a b _ _ hab hba
  exact absurd (hab.trans hba) (lt_irrefl _)

end

variable {l l' : List (Bytes × Node)}

theorem sameListing_trees (h : SameListing l l')
    (hall : ∀ e ∈ l, ∀ n, Same e.2 n → e.2.tree = n.tree) : trees l = trees l' := by
  induction l generalizing l' with
  | nil =>
    cases h
    rfl
  | cons e l ih =>
    cases h with
    | cons hn hl =>
      have hhead := hall _ mem_cons_self _ hn
      have htail := ih hl fun e' he => hall e' (mem_cons_of_mem _ he)
      simp only [trees, htail]
      rw [hhead]

theorem trees_perm (h : l.Perm l') : (trees l).Perm (trees l') := by
  rw [trees_eq, trees_eq]
  exact h.map _

theorem trees_names (l : List (Bytes × Node)) : (trees l).map Prod.fst = l.map Prod.fst := by
  rw [trees_eq, map_map]
  rfl

mutual
theorem same_tree : ∀ (n n' : Node), n.WellFormed → Same n n' → n.tree = n'.tree
  | .regular mode size contents, _, _, .regular h => by rw [tree, tree, h]
  | .symlink target, _, _, .symlink => rfl
  | .directory listing, _, h, @Same.directory _ a b listing' hla hab hbl => by
    have hall := same_listing listing h.1
    have hnames : ((trees listing).map Prod.fst).Nodup := by
      rw [trees_names]
      exact h.2
    have htrees : trees a = trees b := sameListing_trees hab fun e he => hall e (hla.mem_iff.mpr he)
    have hperm : (trees listing).Perm (trees listing') := by
      have hleft := trees_perm hla
      rw [htrees] at hleft
      exact hleft.trans (trees_perm hbl)
    rw [tree, tree, sortByName_congr hnames hperm]
theorem same_listing : ∀ (listing : List (Bytes × Node)), WellFormedListing listing →
    ∀ e ∈ listing, ∀ n, Same e.2 n → e.2.tree = n.tree
  | [], _ => nofun
  | (_, n) :: listing, h => by
    have hn := fun n' => same_tree n n' h.2.1
    have hl := same_listing listing h.2.2
    exact forall_mem_cons.mpr ⟨hn, hl⟩
end

theorem sameListing_of_trees (heq : l.map (fun e => (e.1, e.2.tree)) = l'.map fun e => (e.1, e.2.tree))
    (hall : ∀ e ∈ l, ∀ e' ∈ l', e.2.tree = e'.2.tree → Same e.2 e'.2) : SameListing l l' := by
  induction l generalizing l' with
  | nil =>
    obtain rfl : l' = [] := by simpa using heq.symm
    exact .nil
  | cons e l ih =>
    cases l' with
    | nil => simp at heq
    | cons e' l' =>
      obtain ⟨name, n⟩ := e
      obtain ⟨name', n'⟩ := e'
      simp only [map_cons, cons.injEq, Prod.mk.injEq] at heq
      obtain ⟨⟨rfl, hn⟩, hl⟩ := heq
      refine .cons (hall _ mem_cons_self _ mem_cons_self hn) (ih hl fun e he e' he' => ?_)
      exact hall e (mem_cons_of_mem _ he) e' (mem_cons_of_mem _ he')

mutual
theorem tree_same : ∀ (n n' : Node), n.WellFormed → n'.WellFormed → n.tree = n'.tree → Same n n'
  | .regular mode size contents, .regular mode' size' contents', h, h', heq => by
    obtain ⟨rfl, -⟩ := h
    obtain ⟨rfl, -⟩ := h'
    simp only [tree, take_length, Tree.regular.injEq] at heq
    obtain ⟨hmode, rfl⟩ := heq
    exact .regular hmode
  | .regular _ _ _, .symlink _, _, _, heq => by simp [tree] at heq
  | .regular _ _ _, .directory _, _, _, heq => by simp [tree] at heq
  | .symlink _, .regular _ _ _, _, _, heq => by simp [tree] at heq
  | .symlink target, .symlink target', _, _, heq => by
    simp only [tree, Tree.symlink.injEq] at heq
    subst heq
    exact .symlink
  | .symlink _, .directory _, _, _, heq => by simp [tree] at heq
  | .directory _, .regular _ _ _, _, _, heq => by simp [tree] at heq
  | .directory _, .symlink _, _, _, heq => by simp [tree] at heq
  | .directory listing, .directory listing', h, h', heq => by
    have hall := listing_same listing h.1
    simp only [tree, trees_eq, Tree.directory.injEq] at heq
    rw [sortByName_map fun _ n => tree n, sortByName_map fun _ n => tree n] at heq
    refine .directory (sortByName_perm listing).symm (sameListing_of_trees heq ?_) (sortByName_perm listing')
    intro e he e' he'
    have hwf := (wellFormedListing_iff.mp h'.1 e' ((sortByName_perm listing').mem_iff.mp he')).2
    exact hall e ((sortByName_perm listing).mem_iff.mp he) e'.2 hwf
  | .special, _, h, _, _ => h.elim
  | .regular _ _ _, .special, _, h, _ => h.elim
  | .symlink _, .special, _, h, _ => h.elim
  | .directory _, .special, _, h, _ => h.elim
theorem listing_same : ∀ (listing : List (Bytes × Node)), WellFormedListing listing →
    ∀ e ∈ listing, ∀ n : Node, n.WellFormed → e.2.tree = n.tree → Same e.2 n
  | [], _ => nofun
  | (_, n) :: listing, h => by
    have hn := fun n' => tree_same n n' h.2.1
    have hl := listing_same listing h.2.2
    exact forall_mem_cons.mpr ⟨hn, hl⟩
end

/-! ### Canonical trees -/

theorem increasing_of_pairwise {last : List ℕ} {l : List (Bytes × Tree)} (hlast : ∀ e ∈ l, last < key e.1)
    (h : l.Pairwise fun a b => key a.1 < key b.1) : Increasing last l := by
  induction l generalizing last with
  | nil => trivial
  | cons e l ih =>
    obtain ⟨hhead, htail⟩ := pairwise_cons.mp h
    exact ⟨hlast e mem_cons_self, ih hhead htail⟩

theorem canonicalEntries_iff {l : List (Bytes × Tree)} :
    CanonicalEntries l ↔ ∀ e ∈ l, e.1.length < 2 ^ 64 ∧ e.2.Canonical := by
  induction l with
  | nil => simp [CanonicalEntries]
  | cons e l ih =>
    rw [CanonicalEntries, ih, forall_mem_cons]
    simp only [and_assoc]

mutual
theorem tree_canonical : ∀ n : Node, n.WellFormed → n.tree.Canonical
  | .regular mode size contents, h => by
    obtain ⟨rfl, hsize⟩ := h
    rw [tree, take_length]
    exact hsize
  | .symlink _, h => h
  | .directory listing, h => by
    have hall := listing_canonical listing h.1
    have hnames : ((trees listing).map Prod.fst).Nodup := by
      rw [trees_names]
      exact h.2
    have hmem : ∀ e ∈ sortByName (trees listing), ∃ e' ∈ listing, e = (e'.1, e'.2.tree) := by
      intro e he
      have he := (sortByName_perm _).mem_iff.mp he
      rw [trees_eq] at he
      obtain ⟨e', he', rfl⟩ := mem_map.mp he
      exact ⟨e', he', rfl⟩
    refine ⟨canonicalEntries_iff.mpr fun e he => ?_, increasing_of_pairwise (fun e he => ?_) (sortByName_pairwise hnames)⟩
    · obtain ⟨e', he', rfl⟩ := hmem e he
      exact ⟨(wellFormedListing_iff.mp h.1 e' he').1.2, hall e' he'⟩
    · obtain ⟨e', he', rfl⟩ := hmem e he
      have hne := (wellFormedListing_iff.mp h.1 e' he').1.1
      obtain ⟨b, name, hname⟩ := exists_cons_of_ne_nil hne
      simp only [hname, key, map_cons]
      exact nil_lt_cons _ _
  | .special, h => h.elim
theorem listing_canonical : ∀ (listing : List (Bytes × Node)), WellFormedListing listing →
    ∀ e ∈ listing, e.2.tree.Canonical
  | [], _ => nofun
  | (_, n) :: listing, h => by
    have hn := tree_canonical n h.2.1
    have hl := listing_canonical listing h.2.2
    exact forall_mem_cons.mpr ⟨hn, hl⟩
end

theorem nar_injective {t t' : Tree} (h : t.Canonical) (h' : t'.Canonical) (heq : t.nar = t'.nar) : t = t' := by
  have hparse := parse_nar h
  rw [heq, parse_nar h'] at hparse
  exact (Option.some.inj hparse).symm

/-- A packed store path is the canonical archive of its tree, from which the tree can be read back.
The same tree gives the same archive, and only the same tree does. -/
theorem pack_canonical {root : Node} (h : root.WellFormed) (reads : Path → ℕ → ℕ) :
    toVec reads root = .ok root.tree.nar ∧ root.tree.Canonical ∧ parse root.tree.nar = some root.tree ∧
      ∀ other : Node, other.WellFormed → ∀ reads', toVec reads' other = toVec reads root ↔ Same other root := by
  have hcanonical := tree_canonical root h
  refine ⟨toVec_eq h reads, hcanonical, parse_nar hcanonical, fun other hother reads' => ?_⟩
  rw [toVec_eq h, toVec_eq hother]
  constructor
  · intro heq
    exact tree_same other root hother h (nar_injective (tree_canonical other hother) hcanonical (Except.ok.inj heq))
  · intro hsame
    rw [same_tree other root hother hsame]

/-- A directory with a script and a link to it, listed in either order. -/
theorem pack_canonical_script :
    toVec (fun _ _ => 1) (.directory [(ascii "b", .symlink (ascii "a")), (ascii "a", .regular 0o755 2 [35, 33])]) =
      toVec (fun _ _ => 2) (.directory [(ascii "a", .regular 0o700 2 [35, 33]), (ascii "b", .symlink (ascii "a"))]) := by
  have hwf : (directory [(ascii "b", .symlink (ascii "a")), (ascii "a", .regular 0o755 2 [35, 33])]).WellFormed := by
    simp [WellFormed, WellFormedListing, ascii]
  have hwf' : (directory [(ascii "a", .regular 0o700 2 [35, 33]), (ascii "b", .symlink (ascii "a"))]).WellFormed := by
    simp [WellFormed, WellFormedListing, ascii]
  refine ((pack_canonical hwf' fun _ _ => 2).2.2.2 _ hwf fun _ _ => 1).mpr ?_
  exact .directory (List.Perm.swap _ _ _) (.cons (.regular (by decide)) (.cons .symlink .nil)) (List.Perm.refl _)

end Tribuchet.Nar
