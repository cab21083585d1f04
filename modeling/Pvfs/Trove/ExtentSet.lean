import Pvfs.Lib.Steps
import Pvfs.Trove.Ledger

/-! # Extent lists as sets of handles

However extents are added, joined and split, a list stands for one set of handles, and in one
way only: as the extents with a gap between any two of them. The gaps are there because the
two probes of `extentlist_coalesce_extent` miss no neighbour of the extent that is added. -/

namespace Pvfs.Trove

open Lib List Extentlist

/-! ## Sets of handles -/

inductive ExtentOp where
  | addextent (e : Extent) (now : Timeval)
  | handleRemove (handle : Nat)
  | getAndDecExtent
  | merge (src : Extentlist) (clock : Nat → Timeval)

/-- What a call does to the list; `none` if it fails an assertion or does not return. -/
def ExtentOp.run (avl : Avl) (elist : Extentlist) : ExtentOp → Option Extentlist
  | addextent e now => some (extentlistAddextent avl elist e.first e.last now).2
  | handleRemove handle => (extentlistHandleRemove avl elist handle).map Prod.snd
  | getAndDecExtent => some (extentlistGetAndDecExtent avl elist).2
  | merge src clock => (extentlistMerge avl elist src clock).map Prod.snd

/-- What an operation does to the set of handles. -/
def ExtentOp.onSet (handles : Set Nat) : ExtentOp → Set Nat
  | addextent e _ => handles ∪ { h | e.contains h = true }
  | handleRemove handle => handles \ {handle}
  -- all but the greatest
  | getAndDecExtent => { h | h ∈ handles ∧ ∃ h' ∈ handles, h < h' }
  | merge src _ => handles ∪ src.handles

/-- The extents that a call adds are disjoint from the set. -/
def ExtentOp.Adds (handles : Set Nat) : ExtentOp → Prop
  | addextent e _ => e.Valid ∧ Disjoint handles { h | e.contains h = true }
  | merge src _ => WellFormed src.index ∧ Disjoint handles src.handles
  | _ => True

def extentStep (avl : Avl) (s : Extentlist × Set Nat) (op : ExtentOp) :
    Option (Extentlist × Set Nat) :=
  (op.run avl s.1).map fun elist => (elist, op.onSet s.2)

/-- The list holds the set as extents that are not empty and have gaps between them. -/
structure Extentlist.Denotes (elist : Extentlist) (handles : Set Nat) : Prop where
  nonempty : ∀ e ∈ elist.index.toList, e.first ≤ e.last
  gaps : elist.index.toList.Pairwise fun a b => a.last + 1 < b.first
  union : elist.handles = handles

/-! ## Gaps -/

variable (avl : Avl) {n n' : Index} {e : Extent} {elist : Extentlist}

/-- Extents that do not touch. -/
structure Gapped (n : Index) : Prop extends WellFormed n where
  gap : ∀ x ∈ n.toList, tally n.toList (x.last + 1) = 0

theorem Gapped.pairwise (hn : Gapped n) : n.toList.Pairwise fun a b => a.last + 1 < b.first := by
  refine hn.apart.imp_of_mem fun {a b} ha hb hab => Nat.lt_of_le_of_ne hab.2.1 fun heq => ?_
  have hpos : 0 < tally n.toList (a.last + 1) := tally_pos hb (contains_iff.mpr ⟨heq.ge, by omega⟩)
  exact absurd (hn.gap a ha) hpos.ne'

theorem Gapped.addextent (hg : Gapped elist.index) (hn : Fits elist.index e) (now : Timeval) :
    Gapped (extentlistAddextent avl elist e.first e.last now).2.index := by
  obtain ⟨_, e1, n1, _, e2, n2, index, hadd, hwf, -, h1, hfits1, h2, hfits2, hperm⟩ :
    ∃ lesser e1 n1 greater e2 n2 index, extentlistAddextent avl elist e.first e.last now =
      (0, ⟨_, now, index⟩) ∧ _ := extentlistAddextent_eq avl hn
  have hbefore : (∀ x ∈ n1.toList, x ∈ elist.index.toList) ∧ ∀ x ∈ n1.toList, x.last + 1 ≠ e1.first := by
    obtain ⟨heq, hnone⟩ | ⟨y, n', heq, hvy, -, -, hperm⟩ := mergeLesser_cases avl hn
    all_goals cases h1.symm.trans heq
    · exact ⟨fun x hx => hx, hnone⟩
    · have hsub : ∀ x ∈ n1.toList, x ∈ elist.index.toList :=
        fun x hx => hperm.mem_iff.mp (mem_cons_of_mem _ hx)
      refine ⟨hsub, fun x hx hmeet => (hg.gap x (hsub x hx)).not_gt ?_⟩
      exact tally_pos (hperm.mem_iff.mp mem_cons_self) (contains_iff.mpr ⟨hmeet.ge, hmeet ▸ hvy.2.1⟩)
  have hafter : (∀ x ∈ n2.toList, x ∈ n1.toList) ∧ e2.first = e1.first ∧
      ∀ x ∈ n2.toList, e2.last + 1 ≠ x.first := by
    obtain ⟨heq, hnone⟩ | ⟨y, n', heq, -, -, -, hperm⟩ := mergeGreater_cases avl hfits1
    all_goals cases h2.symm.trans heq
    · exact ⟨fun x hx => hx, rfl, hnone⟩
    · have hsub : ∀ x ∈ y :: n2.toList, x ∈ n1.toList := fun x hx => hperm.mem_iff.mp hx
      refine ⟨fun x hx => hsub x (mem_cons_of_mem _ hx), rfl, fun x hx hmeet => ?_⟩
      have hgap := hg.gap y (hbefore.1 y (hsub y mem_cons_self))
      have hmem := hbefore.1 x (hsub x (mem_cons_of_mem _ hx))
      exact hgap.not_gt (tally_pos hmem (contains_iff.mpr ⟨hmeet.ge, hmeet ▸ (hg.valid x hmem).2.1⟩))
  have hle := (hfits2.valid e2 mem_cons_self).2.1
  rw [hadd]
  refine ⟨hwf, fun x hx => countP_eq_zero.mpr fun y hy hc => ?_⟩
  obtain ⟨hfirst, hlast⟩ := contains_iff.mp hc
  obtain rfl | hx := mem_cons.mp (hperm.mem_iff.mp hx) <;>
    obtain rfl | hy := mem_cons.mp (hperm.mem_iff.mp hy)
  · exact absurd hlast (Nat.not_succ_le_self _)
  · have hside := hfits2.apart hy
    have hne := hafter.2.2 y hy
    omega
  · have hside := hfits2.apart hx
    have hne := hbefore.2 x (hafter.1 x hx)
    have hlex := (hfits2.wellFormed.valid x hx).2.1
    have heq := hafter.2.1
    omega
  · have hold := fun x hx => hbefore.1 x (hafter.1 x hx)
    exact (hg.gap x (hold x hx)).not_gt (tally_pos (hold y hy) hc)

variable {handle h : Nat}

theorem Gapped.sheds (hg : Gapped n) (hs : Sheds n n' handle) : Gapped n' := by
  refine ⟨hs.wellFormed, fun x hx => ?_⟩
  obtain hend | ⟨y, hy, hend⟩ := hs.ends x hx
  · have honce := hg.once (x.last + 1)
    rw [hs.tally_eq, if_pos hend] at honce
    omega
  · rw [hend]
    exact Nat.le_zero.mp ((hs.le _).trans (hg.gap y hy).le)

/-! ## Runs -/

theorem Gapped.mem_handles {elist' : Extentlist} (hg : Gapped elist.index)
    (hs : Sheds elist.index elist'.index handle) :
    h ∈ elist'.handles ↔ h ∈ elist.handles ∧ h ≠ handle := by
  have honce := hg.once h
  rw [Extentlist.mem_handles, Extentlist.mem_handles]
  rw [hs.tally_eq] at honce ⊢
  split_ifs at * <;> omega

theorem Gapped.le_highest (hg : Gapped elist.index)
    (he : avlgethighest elist.index = some e) (hh : h ∈ elist.handles) : h ≤ e.last := by
  obtain ⟨x, hx, hc⟩ := hh
  obtain ⟨init, hlist, -⟩ := Lib.Tree.highest_spec he
  have hapart := hg.apart
  rw [hlist] at hx hapart
  have hlast := (contains_iff.mp hc).2
  obtain hx | hx := mem_append.mp hx
  · have hlt := (pairwise_append.mp hapart).2.2 x hx e (mem_singleton_self e)
    omega
  · exact mem_singleton.mp hx ▸ hlast

/-- An operation does to the index what it does to the set. -/
theorem ExtentOp.run_spec {op : ExtentOp} (hg : Gapped elist.index) (hop : op.Adds elist.handles) :
    ∃ elist', op.run avl elist = some elist' ∧ Gapped elist'.index ∧
      elist'.handles = op.onSet elist.handles := by
  cases op with
  | addextent e now =>
    have hn : Fits elist.index e := by
      refine hg.fits hop.1 fun h => ?_
      have honce := hg.once h
      rw [tally_singleton]
      split
      next hc =>
        have hnot : h ∉ elist.handles := fun hh => Set.disjoint_left.mp hop.2 hh hc
        rw [mem_handles] at hnot
        omega
      next => omega
    obtain ⟨index, hadd, -, htally⟩ : ∃ index, extentlistAddextent avl elist e.first e.last now =
      (0, ⟨_, now, index⟩) ∧ _ := extentlistAddextent_spec avl hn
    refine ⟨_, rfl, hg.addextent avl hn now, Set.ext fun h => ?_⟩
    rw [hadd, mem_handles, htally, tally_cons, tally_singleton]
    change _ ↔ h ∈ elist.handles ∨ e.contains h = true
    rw [mem_handles]
    split <;> simp_all
  | handleRemove handle =>
    obtain ⟨hnone, hrun⟩ | ⟨elist', hrun, hsheds, -⟩ := extentlistHandleRemove_spec avl handle hg.1
    · refine ⟨elist, by rw [run, hrun]; rfl, hg, ?_⟩
      refine (Set.sdiff_singleton_eq_self ?_).symm
      rw [mem_handles, hnone]
      exact Nat.lt_irrefl 0
    · exact ⟨elist', by rw [run, hrun]; rfl, hg.sheds hsheds, Set.ext fun h => hg.mem_handles hsheds⟩
  | getAndDecExtent =>
    obtain ⟨hnil, hrun⟩ | ⟨e, elist', hhigh, hrun, hsheds, -⟩ := extentlistGetAndDecExtent_spec avl hg.1
    · refine ⟨elist, by rw [run, hrun], hg, ?_⟩
      have hempty : ∀ h, h ∉ elist.handles := by
        rintro h ⟨x, hx, -⟩
        rw [hnil] at hx
        cases hx
      exact Set.ext fun h => iff_of_false (hempty h) fun hh => hempty h hh.1
    · refine ⟨elist', by rw [run, hrun], hg.sheds hsheds, Set.ext fun h => ?_⟩
      rw [hg.mem_handles hsheds]
      refine and_congr_right fun hh => ⟨fun hne => ?_, ?_⟩
      · exact ⟨e.last, mem_handles.mpr hsheds.pos,
          Nat.lt_of_le_of_ne (hg.le_highest hhigh hh) hne⟩
      · rintro ⟨h', hh', hlt⟩
        exact (Nat.lt_of_lt_of_le hlt (hg.le_highest hhigh hh')).ne
  | merge src clock =>
    have hfits : FitsAll elist.index src.index := by
      refine ⟨hg.1, hop.1, fun h => ?_⟩
      have honce := hg.once h
      have hsrc := hop.1.once h
      have hnot : h ∈ elist.handles → h ∉ src.handles := fun hh => Set.disjoint_left.mp hop.2 hh
      rw [mem_handles, mem_handles] at hnot
      omega
    obtain ⟨elist', hrun, -, htally, hkeeps⟩ := extentlistMerge_spec avl clock hfits
    refine ⟨elist', by rw [run, hrun]; rfl, ?_, Set.ext fun h => ?_⟩
    · exact hkeeps (fun l => Gapped l.index) (fun l e now hn hl => hl.addextent avl hn now) hg
    · change _ ↔ h ∈ elist.handles ∨ h ∈ src.handles
      rw [mem_handles, mem_handles, mem_handles, htally]
      omega

/-- **An extent list is a set of handles.**  Before and after every call of a run in which what is
added is disjoint from what is there, the list holds just the handles of the set that the calls
make, in extents that are not empty and have gaps between them. -/
theorem extentlist_denotes (avl : Avl) (now : Timeval) (ops : List ExtentOp)
    (hops : Guarded (extentStep avl) (fun s op => op.Adds s.2) (extentlistInit now, ∅) ops) :
    Guarded (extentStep avl) (fun s _ => s.1.Denotes s.2) (extentlistInit now, ∅) ops ∧
      ∃ s, exec (extentStep avl) (extentlistInit now, ∅) ops = some s ∧ s.1.Denotes s.2 := by
  have hI : ∀ s : Extentlist × Set Nat, Gapped s.1.index ∧ s.1.handles = s.2 → s.1.Denotes s.2 :=
    fun s hs => ⟨fun e he => (hs.1.valid e he).2.1, hs.1.pairwise, hs.2⟩
  have hrun : Guarded (extentStep avl) (fun s _ => s.1.Denotes s.2) _ ops ∧ _ :=
    Guarded.of_step (I := fun s => Gapped s.1.index ∧ s.1.handles = s.2) ?_ ?_ hops
  · exact ⟨hrun.1, hrun.2.imp fun s hs => ⟨hs.1, hI s hs.2⟩⟩
  · rintro ⟨elist, _⟩ op ⟨hg, heq⟩ hop
    dsimp only at heq
    subst heq
    obtain ⟨elist', hrun, hg', heq⟩ := op.run_spec avl hg hop
    exact ⟨hI _ ⟨hg, rfl⟩, (elist', _), by rw [extentStep, hrun]; rfl, hg', heq⟩
  · refine ⟨⟨wellFormed_nil, fun x hx => by cases hx⟩, Set.eq_empty_iff_forall_notMem.mpr ?_⟩
    rintro h ⟨x, hx, -⟩
    cases hx

/-- The handles 3 to 7 are added, 5 is taken out, and 7 is given out. -/
theorem extentlist_denotes_split :
    ∃ s, exec (extentStep (OrderedMap.unbalanced Extent.first)) (extentlistInit ⟨0, 0⟩, ∅)
      [.addextent ⟨3, 7⟩ ⟨0, 0⟩, .handleRemove 5, .getAndDecExtent] = some s ∧ s.1.Denotes s.2 := by
  refine (extentlist_denotes _ ⟨0, 0⟩ _ ?_).2
  refine .cons rfl ⟨by simp [Extent.Valid, handleLimit], Set.empty_disjoint _⟩ ?_
  exact .cons rfl trivial (.cons rfl trivial trivial)

end Pvfs.Trove
