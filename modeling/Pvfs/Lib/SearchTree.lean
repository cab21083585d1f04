import Mathlib.Order.Lattice

/-! # Search trees

A tree stands for the list of its items from left to right. `search` walks down it by a
three-way test of each item, whatever the test is, and the lemmas say when that finds an
item of the list. How items get in and out of a tree is left to an `OrderedMap`: any two
operations that keep the items in the order of their keys and add or remove just the one
they are asked to. How such a map balances its trees is its own affair. -/

namespace Pvfs.Lib

open List

inductive Tree (α : Type) where
  | nil
  | node (left : Tree α) (d : α) (right : Tree α)
deriving DecidableEq, Repr

namespace Tree

variable {α κ : Type} {t : Tree α} {a d : α} {dir : α → Ordering}

def toList : Tree α → List α
  | nil => []
  | node left d right => left.toList ++ d :: right.toList

@[simp] theorem toList_nil : (nil : Tree α).toList = [] := rfl

@[simp] theorem toList_node (left right : Tree α) :
    (node left d right).toList = left.toList ++ d :: right.toList := rfl

theorem eq_nil_of_toList (h : t.toList = []) : t = nil := by
  cases t with
  | nil => rfl
  | node left d right => simp at h

/-! ## Walking down -/

/-- Walk down to an item that passes the test, to the left of those that are too great. -/
def search (dir : α → Ordering) : Tree α → Option α
  | nil => none
  | node left d right =>
    match dir d with
    | .lt => left.search dir
    | .gt => right.search dir
    | .eq => some d

theorem of_search (h : t.search dir = some a) : a ∈ t.toList ∧ dir a = .eq := by
  induction t with
  | nil => cases h
  | node left d right ihl ihr =>
    rw [toList_node, mem_append, mem_cons]
    unfold search at h
    cases hd : dir d with
    | lt =>
      simp only [hd] at h
      exact ⟨.inl (ihl h).1, (ihl h).2⟩
    | gt =>
      simp only [hd] at h
      exact ⟨.inr (.inr (ihr h).1), (ihr h).2⟩
    | eq =>
      simp only [hd, Option.some.injEq] at h
      subst h
      exact ⟨.inr (.inl rfl), hd⟩

theorem search_of_mem {R : α → α → Prop} (hord : t.toList.Pairwise R)
    (hbefore : ∀ x, R x a → dir x = .gt) (hafter : ∀ x, R a x → dir x = .lt)
    (heq : dir a = .eq) (ha : a ∈ t.toList) : t.search dir = some a := by
  induction t with
  | nil => cases ha
  | node left d right ihl ihr =>
    obtain ⟨hl, hr, hlr⟩ := pairwise_append.mp hord
    obtain ⟨hdr, hr⟩ := pairwise_cons.mp hr
    rw [toList_node, mem_append, mem_cons] at ha
    obtain ha | rfl | ha := ha
    · rw [search, hafter d (hlr a ha d mem_cons_self)]
      exact ihl hl ha
    · rw [search, heq]
    · rw [search, hbefore d (hdr a ha)]
      exact ihr hr ha

/-! ## The last item -/

def highest : Tree α → Option α
  | nil => none
  | node _ d nil => some d
  | node _ _ (node left d right) => (node left d right).highest

def mapHighest (f : α → α) : Tree α → Tree α
  | nil => nil
  | node left d nil => node left (f d) nil
  | node left d (node left' d' right') => node left d ((node left' d' right').mapHighest f)

def dropHighest : Tree α → Tree α
  | nil => nil
  | node left _ nil => left
  | node left d (node left' d' right') => node left d (node left' d' right').dropHighest

theorem highest_eq_none (h : t.highest = none) : t = nil := by
  fun_induction highest t with
  | case1 => rfl
  | case2 => cases h
  | case3 _ _ _ _ _ ih => exact absurd (ih h) (by simp)

theorem highest_spec (h : t.highest = some a) : ∃ init, t.toList = init ++ [a] ∧
    (∀ f, (t.mapHighest f).toList = init ++ [f a]) ∧ t.dropHighest.toList = init := by
  fun_induction highest t with
  | case1 => cases h
  | case2 left d =>
    cases h
    exact ⟨left.toList, rfl, fun _ => rfl, rfl⟩
  | case3 left d left' d' right' ih =>
    obtain ⟨init, hlist, hmap, hdrop⟩ := ih h
    refine ⟨left.toList ++ d :: init, ?_, fun f => ?_, ?_⟩
    · rw [toList_node, hlist, append_assoc, cons_append]
    · rw [mapHighest, toList_node, hmap, append_assoc, cons_append]
    · rw [dropHighest, toList_node, hdrop]

/-! ## Maps -/

def Sorted [LT κ] (key : α → κ) (t : Tree α) : Prop :=
  t.toList.Pairwise fun a b => key a < key b

end Tree

/-- Insertion and removal by key. `none` is a refusal: of an item whose key is in the tree
already, or of a key that is not. -/
structure OrderedMap (α κ : Type) [LT κ] (key : α → κ) where
  insert : Tree α → α → Option (Tree α)
  remove : Tree α → κ → Option (Tree α)
  insert_spec : ∀ (t : Tree α) (a : α), t.Sorted key → (∀ x ∈ t.toList, key x ≠ key a) →
    ∃ t', insert t a = some t' ∧ t'.Sorted key ∧ t'.toList.Perm (a :: t.toList)
  remove_spec : ∀ (t : Tree α) (a : α), t.Sorted key → a ∈ t.toList →
    ∃ t', remove t (key a) = some t' ∧ t'.Sorted key ∧ (a :: t'.toList).Perm t.toList

/-! ## Trees that are not balanced -/

namespace Tree

variable {α κ : Type} [LinearOrder κ] {key : α → κ} {t t' : Tree α} {a : α} {k : κ}

/-- A new leaf. -/
def hang (key : α → κ) (a : α) : Tree α → Option (Tree α)
  | nil => some (node nil a nil)
  | node left d right =>
    if key a < key d then (left.hang key a).map fun left' => node left' d right
    else if key d < key a then (right.hang key a).map fun right' => node left d right'
    else none

def join (left right : Tree α) : Tree α :=
  match left.highest with
  | none => right
  | some d => node left.dropHighest d right

/-- The element of a key is taken out. -/
def pluck (key : α → κ) (k : κ) : Tree α → Option (Tree α)
  | nil => none
  | node left d right =>
    if k < key d then (left.pluck key k).map fun left' => node left' d right
    else if key d < k then (right.pluck key k).map fun right' => node left d right'
    else some (left.join right)

theorem toList_join (left right : Tree α) :
    (left.join right).toList = left.toList ++ right.toList := by
  unfold join
  cases h : left.highest with
  | none => rw [highest_eq_none h, toList_nil, nil_append]
  | some d =>
    obtain ⟨init, hlist, -, hdrop⟩ := highest_spec h
    rw [toList_node, hdrop, hlist, append_assoc, singleton_append]

theorem hang_spec (hs : t.Sorted key) (hfresh : ∀ x ∈ t.toList, key x ≠ key a) :
    ∃ t', t.hang key a = some t' ∧ t'.Sorted key ∧ t'.toList.Perm (a :: t.toList) := by
  induction t with
  | nil => exact ⟨_, rfl, pairwise_singleton _ a, .refl _⟩
  | node left d right ihl ihr =>
    obtain ⟨hl, hr, hlr⟩ := pairwise_append.mp hs
    obtain ⟨hdr, hr'⟩ := pairwise_cons.mp hr
    simp only [toList_node, mem_append, mem_cons] at hfresh
    obtain hlt | heq | hgt := lt_trichotomy (key a) (key d)
    · obtain ⟨t', ht', hsorted, hperm⟩ := ihl hl fun x hx => hfresh x (.inl hx)
      refine ⟨node t' d right, ?_, pairwise_append.mpr ⟨hsorted, hr, fun x hx y hy => ?_⟩,
        hperm.append_right _⟩
      · rw [hang, if_pos hlt, ht', Option.map_some]
      · obtain rfl | hx := mem_cons.mp (hperm.mem_iff.mp hx)
        · obtain rfl | hy := mem_cons.mp hy
          · exact hlt
          · exact hlt.trans (hdr y hy)
        · exact hlr x hx y hy
    · exact absurd heq.symm (hfresh d (.inr (.inl rfl)))
    · obtain ⟨t', ht', hsorted, hperm⟩ := ihr hr' fun x hx => hfresh x (.inr (.inr hx))
      have hmem : ∀ y ∈ t'.toList, y = a ∨ y ∈ right.toList :=
        fun y hy => mem_cons.mp (hperm.mem_iff.mp hy)
      refine ⟨node left d t', ?_, pairwise_append.mpr ⟨hl, pairwise_cons.mpr ⟨fun y hy => ?_, hsorted⟩,
        fun x hx y hy => ?_⟩, ?_⟩
      · rw [hang, if_neg hgt.not_gt, if_pos hgt, ht', Option.map_some]
      · obtain rfl | hy := hmem y hy
        · exact hgt
        · exact hdr y hy
      · have hxd := hlr x hx d mem_cons_self
        obtain rfl | hy := mem_cons.mp hy
        · exact hxd
        · obtain rfl | hy := hmem y hy
          · exact hxd.trans hgt
          · exact hlr x hx y (mem_cons_of_mem _ hy)
      · exact ((hperm.cons d).trans (.swap a d _)).append_left left.toList |>.trans perm_middle

theorem pluck_spec (hs : t.Sorted key) (ha : a ∈ t.toList) :
    ∃ t', t.pluck key (key a) = some t' ∧ t'.toList.Sublist t.toList ∧
      (a :: t'.toList).Perm t.toList := by
  induction t with
  | nil => cases ha
  | node left d right ihl ihr =>
    obtain ⟨hl, hr, hlr⟩ := pairwise_append.mp hs
    obtain ⟨hdr, hr⟩ := pairwise_cons.mp hr
    rw [toList_node, mem_append, mem_cons] at ha
    obtain ha | rfl | ha := ha
    · obtain ⟨t', ht', hsub, hperm⟩ := ihl hl ha
      refine ⟨node t' d right, ?_, hsub.append_right _, hperm.append_right _⟩
      rw [pluck, if_pos (hlr a ha d mem_cons_self), ht', Option.map_some]
    · refine ⟨left.join right, ?_, ?_, ?_⟩
      · rw [pluck, if_neg (lt_irrefl _), if_neg (lt_irrefl _)]
      · rw [toList_join]
        exact (sublist_cons_self a _).append_left _
      · rw [toList_join]
        exact perm_middle.symm
    · obtain ⟨t', ht', hsub, hperm⟩ := ihr hr ha
      refine ⟨node left d t', ?_, (hsub.cons_cons d).append_left _, ?_⟩
      · rw [pluck, if_neg (hdr a ha).not_gt, if_pos (hdr a ha), ht', Option.map_some]
      · exact perm_middle.symm.trans (((Perm.swap d a _).trans (hperm.cons d)).append_left left.toList)

end Tree

def OrderedMap.unbalanced {α κ : Type} [LinearOrder κ] (key : α → κ) : OrderedMap α κ key where
  insert t a := t.hang key a
  remove t k := t.pluck key k
  insert_spec t a hs hfresh := Tree.hang_spec hs hfresh
  remove_spec t a hs ha := by
    obtain ⟨t', ht', hsub, hperm⟩ := Tree.pluck_spec hs ha
    exact ⟨t', ht', hs.sublist hsub, hperm⟩

end Pvfs.Lib
