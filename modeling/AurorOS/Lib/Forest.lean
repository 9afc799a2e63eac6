import Mathlib.Tactic
import Mathlib.Logic.Relation

/-! # Ordered forests and the pointer structures that spell them out

A forest is a list of ordered labelled trees, written as first tree and rest.
`Spans` says that two functions, the list of children of a label and its parent,
spell out a forest; it is kept by cutting out a subtree and by hanging in a leaf.
-/

inductive Forest (α : Type) where
  | nil
  | cons (label : α) (kids rest : Forest α)

namespace Forest

variable {α : Type}

def roots : Forest α → List α
  | nil => []
  | cons a _ rest => a :: rest.roots

/-- All labels, a tree's root before its subtrees. -/
def labels : Forest α → List α
  | nil => []
  | cons a kids rest => a :: (kids.labels ++ rest.labels)

/-- Cut out the subtree at `p`. -/
def remove [DecidableEq α] (p : α) : Forest α → Forest α
  | nil => nil
  | cons a kids rest => if a = p then rest else cons a (kids.remove p) (rest.remove p)

def append : Forest α → Forest α → Forest α
  | nil, G => G
  | cons a kids rest, G => cons a kids (rest.append G)

/-- Hang the leaf `x` in as the last child of `d`. -/
def addUnder [DecidableEq α] (d x : α) : Forest α → Forest α
  | nil => nil
  | cons a kids rest =>
      cons a (if a = d then (kids.addUnder d x).append (cons x nil nil) else kids.addUnder d x)
        (rest.addUnder d x)

/-- `At par F p K q`: in the forest `F`, whose roots have parent `par`, the label `p`
    has parent `q` and the forest `K` below it. -/
inductive At : α → Forest α → α → Forest α → α → Prop where
  | here {par p K rest} : At par (cons p K rest) p K par
  | inside {par a kids rest p K q} : At a kids p K q → At par (cons a kids rest) p K q
  | later {par a kids rest p K q} : At par rest p K q → At par (cons a kids rest) p K q

/-- Children and parents of the labels are those of the forest. -/
def Spans (kidsOf : α → List α) (parentOf : α → α) : α → Forest α → Prop
  | _, nil => True
  | par, cons a kids rest =>
      parentOf a = par ∧ kidsOf a = kids.roots ∧ Spans kidsOf parentOf a kids ∧
        Spans kidsOf parentOf par rest

variable {F K G : Forest α} {par p q d x y : α} {kidsOf kidsOf' : α → List α}
  {parentOf parentOf' : α → α}

theorem mem_labels_cons {a : α} {kids rest : Forest α} :
    x ∈ (cons a kids rest).labels ↔ x = a ∨ x ∈ kids.labels ∨ x ∈ rest.labels := by
  simp [labels]

/-- The labels of a single tree. -/
theorem mem_labels_tree : x ∈ (cons p K nil).labels ↔ x = p ∨ x ∈ K.labels := by
  simp [labels]

theorem roots_sublist (F : Forest α) : F.roots.Sublist F.labels := by
  induction F with
  | nil => exact .slnil
  | cons a kids rest _ ih => exact (ih.trans (List.sublist_append_right _ _)).cons_cons a

theorem nodup_cons {a : α} {kids rest : Forest α} : (cons a kids rest).labels.Nodup ↔
    a ∉ kids.labels ∧ a ∉ rest.labels ∧ kids.labels.Nodup ∧ rest.labels.Nodup ∧
      ∀ x ∈ kids.labels, x ∉ rest.labels := by
  rw [labels, List.nodup_cons, List.nodup_append', List.mem_append, not_or, List.disjoint_left]
  tauto

theorem exists_at (par : α) (member : p ∈ F.labels) : ∃ K q, At par F p K q := by
  induction F generalizing par with
  | nil => cases member
  | cons a kids rest kidsIh restIh =>
      rcases mem_labels_cons.mp member with rfl | below | later
      · exact ⟨kids, par, .here⟩
      · obtain ⟨K, q, position⟩ := kidsIh a below
        exact ⟨K, q, .inside position⟩
      · obtain ⟨K, q, position⟩ := restIh par later
        exact ⟨K, q, .later position⟩

namespace At

theorem mem (position : At par F p K q) : p ∈ F.labels := by
  induction position with
  | here => exact List.mem_cons_self
  | inside _ ih => exact mem_labels_cons.mpr (.inr (.inl ih))
  | later _ ih => exact mem_labels_cons.mpr (.inr (.inr ih))

theorem kids_mem (position : At par F p K q) (below : x ∈ K.labels) : x ∈ F.labels := by
  induction position with
  | here => exact mem_labels_cons.mpr (.inr (.inl below))
  | inside _ ih => exact mem_labels_cons.mpr (.inr (.inl (ih below)))
  | later _ ih => exact mem_labels_cons.mpr (.inr (.inr (ih below)))

theorem parent_mem (position : At par F p K q) : q = par ∨ q ∈ F.labels := by
  induction position with
  | here => exact .inl rfl
  | inside _ ih =>
      rcases ih with rfl | below
      · exact .inr List.mem_cons_self
      · exact .inr (mem_labels_cons.mpr (.inr (.inl below)))
  | later _ ih => exact ih.imp_right fun later => mem_labels_cons.mpr (.inr (.inr later))

/-- A subtree of a forest without repetitions has none, and its parent lies outside. -/
theorem nodup (position : At par F p K q) (unique : (par :: F.labels).Nodup) :
    (cons p K nil).labels.Nodup ∧ q ∉ (cons p K nil).labels := by
  induction position with
  | here =>
      obtain ⟨outside, rest⟩ := List.nodup_cons.mp unique
      obtain ⟨notKid, _, kids, _, _⟩ := nodup_cons.mp rest
      refine ⟨nodup_cons.mpr ⟨notKid, by simp [labels], kids, by simp [labels], by simp [labels]⟩,
        ?_⟩
      intro inside
      rw [mem_labels_cons] at inside outside
      simp only [labels, List.not_mem_nil, or_false] at inside
      exact outside (inside.imp_right .inl)
  | inside _ ih =>
      obtain ⟨_, rest⟩ := List.nodup_cons.mp unique
      obtain ⟨notKid, _, kids, _, _⟩ := nodup_cons.mp rest
      exact ih (List.nodup_cons.mpr ⟨notKid, kids⟩)
  | later _ ih =>
      obtain ⟨outside, rest⟩ := List.nodup_cons.mp unique
      obtain ⟨_, _, _, later, _⟩ := nodup_cons.mp rest
      refine ih (List.nodup_cons.mpr ⟨fun inside => outside ?_, later⟩)
      exact mem_labels_cons.mpr (.inr (.inr inside))

end At

theorem Spans.congr (spans : Spans kidsOf parentOf par F)
    (same : ∀ x ∈ F.labels, kidsOf' x = kidsOf x ∧ parentOf' x = parentOf x) :
    Spans kidsOf' parentOf' par F := by
  induction F generalizing par with
  | nil => trivial
  | cons a kids rest kidsIh restIh =>
      obtain ⟨parent, children, below, later⟩ := spans
      obtain ⟨sameKids, sameParent⟩ := same a List.mem_cons_self
      refine ⟨sameParent.trans parent, sameKids.trans children, kidsIh below ?_, restIh later ?_⟩
      · exact fun x inside => same x (mem_labels_cons.mpr (.inr (.inl inside)))
      · exact fun x inside => same x (mem_labels_cons.mpr (.inr (.inr inside)))

/-- A subtree is spelled out as well, and its parent is the one of the position. -/
theorem At.spans (position : At par F p K q) (spans : Spans kidsOf parentOf par F) :
    parentOf p = q ∧ kidsOf p = K.roots ∧ Spans kidsOf parentOf p K := by
  induction position with
  | here => exact ⟨spans.1, spans.2.1, spans.2.2.1⟩
  | inside _ ih => exact ih spans.2.2.1
  | later _ ih => exact ih spans.2.2.2

theorem Spans.parent_of_root (spans : Spans kidsOf parentOf par F) (root : x ∈ F.roots) :
    parentOf x = par := by
  induction F with
  | nil => cases root
  | cons a kids rest _ ih =>
      rcases List.mem_cons.mp root with rfl | later
      · exact spans.1
      · exact ih spans.2.2.2 later

/-- A child's parent is the label it is a child of. -/
theorem Spans.parent_of_kid (spans : Spans kidsOf parentOf par F) (inside : x ∈ F.labels)
    (kid : y ∈ kidsOf x) :
    parentOf y = x := by
  obtain ⟨K, q, position⟩ := exists_at par inside
  obtain ⟨_, children, below⟩ := position.spans spans
  exact below.parent_of_root (children ▸ kid)

/-- A label is a child of its parent. -/
theorem At.mem_kidsOf (position : At par F p K q) (spans : Spans kidsOf parentOf par F)
    (listed : ∀ x ∈ F.roots, x ∈ kidsOf par) : p ∈ kidsOf q := by
  induction position with
  | here => exact listed _ List.mem_cons_self
  | inside _ ih => exact ih spans.2.2.1 fun x root => spans.2.1 ▸ root
  | later _ ih => exact ih spans.2.2.2 fun x root => listed x (List.mem_cons_of_mem _ root)

/-- Descendants of the roots are the labels. -/
theorem Spans.descendant_mem (spans : Spans kidsOf parentOf par F) (inside : x ∈ F.labels)
    (step : y ∈ kidsOf x) : y ∈ F.labels := by
  obtain ⟨K, q, position⟩ := exists_at par inside
  rw [(position.spans spans).2.1] at step
  exact position.kids_mem (K.roots_sublist.subset step)

theorem Spans.label_descends (spans : Spans kidsOf parentOf par F) (inside : x ∈ F.labels) :
    ∃ r ∈ F.roots, Relation.ReflTransGen (fun a b => b ∈ kidsOf a) r x := by
  induction F generalizing par with
  | nil => cases inside
  | cons a kids rest kidsIh restIh =>
      obtain ⟨_, children, below, later⟩ := spans
      rcases mem_labels_cons.mp inside with rfl | inKids | inRest
      · exact ⟨x, List.mem_cons_self, .refl⟩
      · obtain ⟨r, root, path⟩ := kidsIh below inKids
        exact ⟨a, List.mem_cons_self, .head (children ▸ root) path⟩
      · obtain ⟨r, root, path⟩ := restIh later inRest
        exact ⟨r, List.mem_cons_of_mem a root, path⟩

/-- The labels of a tree are what its root leads to. -/
theorem Spans.mem_iff_descends (children : kidsOf p = K.roots) (spans : Spans kidsOf parentOf p K) :
    x ∈ (cons p K nil).labels ↔ Relation.ReflTransGen (fun a b => b ∈ kidsOf a) p x := by
  have tree : Spans kidsOf parentOf (parentOf p) (cons p K nil) := ⟨rfl, children, spans, trivial⟩
  constructor
  · intro inside
    obtain ⟨r, root, path⟩ := tree.label_descends inside
    obtain rfl : r = p := by simpa [roots] using root
    exact path
  · intro path
    induction path with
    | refl => exact List.mem_cons_self
    | tail _ step ih => exact tree.descendant_mem ih step

theorem roots_append (F G : Forest α) : (F.append G).roots = F.roots ++ G.roots := by
  induction F with
  | nil => rfl
  | cons a kids rest _ ih => rw [append, roots, roots, ih, List.cons_append]

theorem labels_append (F G : Forest α) : (F.append G).labels = F.labels ++ G.labels := by
  induction F with
  | nil => rfl
  | cons a kids rest _ ih => rw [append, labels, labels, ih, List.cons_append, List.append_assoc]

theorem Spans.append (first : Spans kidsOf parentOf par F) (second : Spans kidsOf parentOf par G) :
    Spans kidsOf parentOf par (F.append G) := by
  induction F with
  | nil => exact second
  | cons a kids rest _ ih => exact ⟨first.1, first.2.1, first.2.2.1, ih first.2.2.2⟩

section Edits

variable [DecidableEq α]

theorem remove_of_not_mem (absent : p ∉ F.labels) : F.remove p = F := by
  induction F with
  | nil => rfl
  | cons a kids rest kidsIh restIh =>
      rw [mem_labels_cons, not_or, not_or] at absent
      rw [remove, if_neg (Ne.symm absent.1), kidsIh absent.2.1, restIh absent.2.2]

theorem roots_remove (F : Forest α) (p : α) : (F.remove p).roots = F.roots.erase p := by
  induction F with
  | nil => rfl
  | cons a kids rest _ ih =>
      rw [remove, roots, List.erase_cons]
      by_cases same : a = p
      · simp [same]
      · simp [same, roots, ih]

theorem labels_remove_sublist (F : Forest α) (p : α) : (F.remove p).labels.Sublist F.labels := by
  induction F with
  | nil => exact .slnil
  | cons a kids rest kidsIh restIh =>
      rw [remove, labels]
      split
      · exact ((List.sublist_append_right _ _).trans (List.sublist_cons_self a _))
      · exact (kidsIh.append restIh).cons_cons a

/-- What is left are the labels outside the subtree. -/
theorem At.mem_remove (position : At par F p K q) (unique : F.labels.Nodup) :
    x ∈ (F.remove p).labels ↔ x ∈ F.labels ∧ x ∉ (cons p K nil).labels := by
  induction position with
  | here =>
      obtain ⟨_, notRest, _, _, apart⟩ := nodup_cons.mp unique
      rw [remove, if_pos rfl]
      simp only [labels]
      grind
  | @inside par a kids rest p K q position ih =>
      obtain ⟨notKid, _, kidsUnique, _, apart⟩ := nodup_cons.mp unique
      have member := position.mem
      have below : ∀ x ∈ K.labels, x ∈ kids.labels := fun x => position.kids_mem
      have other : a ≠ p := fun same => notKid (same ▸ member)
      have kidsLeft := ih kidsUnique
      rw [remove, if_neg other, remove_of_not_mem (apart p member)]
      simp only [labels] at kidsLeft ⊢
      grind
  | @later par a kids rest p K q position ih =>
      obtain ⟨_, notRest, _, restUnique, apart⟩ := nodup_cons.mp unique
      have member := position.mem
      have below : ∀ x ∈ K.labels, x ∈ rest.labels := fun x => position.kids_mem
      have other : a ≠ p := fun same => notRest (same ▸ member)
      have restLeft := ih restUnique
      rw [remove, if_neg other, remove_of_not_mem fun inKids => apart p inKids member]
      simp only [labels] at restLeft ⊢
      grind

theorem Spans.remove (spans : Spans kidsOf parentOf par F) (unique : F.labels.Nodup)
    (cut : ∀ x ∈ (F.remove p).labels, kidsOf' x = (kidsOf x).erase p ∧ parentOf' x = parentOf x) :
    Spans kidsOf' parentOf' par (F.remove p) := by
  induction F generalizing par with
  | nil => trivial
  | cons a kids rest kidsIh restIh =>
      obtain ⟨parent, children, below, later⟩ := spans
      obtain ⟨_, notRest, kidsUnique, restUnique, _⟩ := nodup_cons.mp unique
      rw [Forest.remove] at cut ⊢
      by_cases same : a = p
      · subst same
        have whole : rest.remove a = rest := remove_of_not_mem notRest
        rw [if_pos rfl] at cut ⊢
        rw [← whole]
        exact restIh later restUnique fun x inside => cut x (whole ▸ inside)
      · rw [if_neg same] at cut ⊢
        obtain ⟨cutKids, sameParent⟩ := cut a List.mem_cons_self
        refine ⟨sameParent.trans parent, ?_, kidsIh below kidsUnique ?_, restIh later restUnique ?_⟩
        · rw [cutKids, children, roots_remove]
        · exact fun x inside => cut x (mem_labels_cons.mpr (.inr (.inl inside)))
        · exact fun x inside => cut x (mem_labels_cons.mpr (.inr (.inr inside)))

theorem roots_addUnder (F : Forest α) (d x : α) : (F.addUnder d x).roots = F.roots := by
  induction F with
  | nil => rfl
  | cons a kids rest _ ih => rw [addUnder, roots, roots, ih]

theorem mem_addUnder : y ∈ (F.addUnder d x).labels ↔ y ∈ F.labels ∨ (y = x ∧ d ∈ F.labels) := by
  induction F with
  | nil => simp [addUnder, labels]
  | cons a kids rest kidsIh restIh =>
      rw [addUnder, mem_labels_cons, mem_labels_cons, mem_labels_cons, restIh]
      by_cases same : a = d
      · rw [if_pos same, labels_append, List.mem_append, kidsIh, mem_labels_cons]
        simp only [labels, List.not_mem_nil, or_false]
        grind
      · rw [if_neg same, kidsIh]
        grind

theorem nodup_addUnder (unique : F.labels.Nodup) (fresh : x ∉ F.labels) :
    (F.addUnder d x).labels.Nodup := by
  induction F with
  | nil => exact List.nodup_nil
  | cons a kids rest kidsIh restIh =>
      obtain ⟨notKid, notRest, kidsUnique, restUnique, apart⟩ := nodup_cons.mp unique
      rw [mem_labels_cons, not_or, not_or] at fresh
      have kidsNodup := kidsIh kidsUnique fresh.2.1
      have restNodup := restIh restUnique fresh.2.2
      rw [addUnder]
      by_cases same : a = d
      · subst same
        -- `d` is the root here, so it is in neither forest and nothing else is added
        have kidsSame : ∀ y, y ∈ (kids.addUnder a x).labels ↔ y ∈ kids.labels := by
          intro y
          rw [mem_addUnder]
          simp [notKid]
        have restSame : ∀ y, y ∈ (rest.addUnder a x).labels ↔ y ∈ rest.labels := by
          intro y
          rw [mem_addUnder]
          simp [notRest]
        rw [if_pos rfl, nodup_cons, labels_append]
        simp only [labels, List.append_nil, List.mem_append, List.mem_singleton, kidsSame, restSame,
          List.nodup_append', List.nodup_singleton, List.disjoint_singleton]
        grind
      · rw [if_neg same, nodup_cons]
        simp only [mem_addUnder]
        grind

theorem Spans.addUnder (spans : Spans kidsOf parentOf par F)
    (same : ∀ y ∈ F.labels, kidsOf' y = (if y = d then kidsOf y ++ [x] else kidsOf y) ∧
    parentOf' y = parentOf y) (leaf : kidsOf' x = []) (hung : parentOf' x = d) :
    Spans kidsOf' parentOf' par (F.addUnder d x) := by
  induction F generalizing par with
  | nil => trivial
  | cons a kids rest kidsIh restIh =>
      obtain ⟨parent, children, below, later⟩ := spans
      obtain ⟨newKids, sameParent⟩ := same a List.mem_cons_self
      have kidsSpan :=
        kidsIh below fun y inside => same y (mem_labels_cons.mpr (.inr (.inl inside)))
      have restSpan :=
        restIh later fun y inside => same y (mem_labels_cons.mpr (.inr (.inr inside)))
      rw [children] at newKids
      by_cases atRoot : a = d
      · subst atRoot
        rw [if_pos rfl] at newKids
        rw [Forest.addUnder, if_pos rfl]
        refine ⟨sameParent.trans parent, ?_, kidsSpan.append ⟨hung, leaf, trivial, trivial⟩,
          restSpan⟩
        rw [newKids, roots_append, roots_addUnder]
        rfl
      · rw [if_neg atRoot] at newKids
        rw [Forest.addUnder, if_neg atRoot]
        refine ⟨sameParent.trans parent, ?_, kidsSpan, restSpan⟩
        rw [newKids, roots_addUnder]

end Edits

end Forest
