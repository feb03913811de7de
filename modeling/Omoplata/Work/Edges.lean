-- SUMMARY: What a rebase records in the change graph, and which tips that moves.
import Omoplata.Identity.Supersession
import Omoplata.Work.Autorebase

/-!
# Recording a rebase in the change graph

A graph into which rebases alone have recorded holds drafts with registered revisions, so an edge is refused
for closing a cycle and for nothing else. The new edge is one between commits: it moves the tips of all changes
whose chains run through the old tip.
-/

namespace Omoplata

open StateTransition Chain ChangeGraph

variable {g g' : ChangeGraph} {change d : ChangeId} {commit oldTip newTip : CommitId}

/-! ## What recording does to the graph -/

/-- What holds of a graph in which rebases alone have recorded. -/
structure Tracked (g : ChangeGraph) : Prop where
  acyclic : Acyclic g.newer
  draft : ∀ id c, g.change id = some c → c.phase = .draft
  revised : ∀ id c, g.change id = some c → c.revisions ≠ []
  owned : ∀ id c, g.change id = some c → ∀ r ∈ c.revisions, (g.commitOwner[r]?).isSome = true

theorem tracked_new : Tracked .new where
  acyclic := acyclic_new
  draft id c hc := by cases hc
  revised id c hc := by cases hc
  owned id c hc := by cases hc

/-- Putting a draft with registered revisions in. -/
theorem Tracked.insert (h : Tracked g) {owner : BTreeMap CommitId ChangeId} {c : Change} (hdraft : c.phase = .draft)
    (hrevised : c.revisions ≠ []) (howned : ∀ r ∈ c.revisions, (owner[r]?).isSome = true)
    (hkept : ∀ r : CommitId, (g.commitOwner[r]?).isSome = true → (owner[r]?).isSome = true) :
    Tracked { g with commitOwner := owner, changes := g.changes.insert change c } := by
  refine ⟨h.acyclic, fun id c' hid => ?_, fun id c' hid => ?_, fun id c' hid => ?_⟩
  all_goals
    simp only [ChangeGraph.change, BTreeMap.getElem?_insert] at hid
    split at hid
  · cases hid
    exact hdraft
  · exact h.draft id c' hid
  · cases hid
    exact hrevised
  · exact h.revised id c' hid
  · cases hid
    exact howned
  · exact fun r hr => hkept r (h.owned id c' hid r hr)

theorem isSome_insert (owner : BTreeMap CommitId ChangeId) {r : CommitId}
    (h : r = commit ∨ (owner[r]?).isSome = true) : ((owner.insert commit change)[r]?).isSome = true := by
  rw [BTreeMap.getElem?_insert]
  split
  · rfl
  · rename_i hne
    exact h.resolve_left fun heq => hne heq.symm

/-- A change has a commit among its revisions, and the edges are as given. -/
structure Extends (g g' : ChangeGraph) (change : ChangeId) (commit : CommitId) (newer : CommitId → Option CommitId) :
    Prop where
  tracked : Tracked g'
  newer_eq : g'.newer = newer
  first_self : g'.first change = some ((g.first change).getD commit)
  first_other : ∀ d, d ≠ change → g'.first d = g.first d
  registered : (g'.commitOwner[commit]?).isSome = true
  registered_of : ∀ r : CommitId, (g.commitOwner[r]?).isSome = true → (g'.commitOwner[r]?).isSome = true

theorem ensureRevision_ok (h : Tracked g) (change : ChangeId) (commit : CommitId) :
    ∃ g', ensureRevision g change commit = .ok g' ∧ Extends g g' change commit g.newer := by
  have hkept : ∀ r : CommitId, (g.commitOwner[r]?).isSome = true →
      ((g.commitOwner.insert commit change)[r]?).isSome = true := fun r hr => isSome_insert _ (.inr hr)
  have hnew : ((g.commitOwner.insert commit change)[commit]?).isSome = true := isSome_insert _ (.inl rfl)
  have hother : ∀ (c : Change) d, d ≠ change →
      ({ g with commitOwner := g.commitOwner.insert commit change, changes := g.changes.insert change c } :
        ChangeGraph).first d = g.first d := by
    intro c d hd
    unfold first
    rw [BTreeMap.getElem?_insert, if_neg (Ne.symm hd)]
  unfold ensureRevision
  cases hc : g.change change with
  | none =>
      have hc' : g.changes[change]? = none := hc
      have htracked : Tracked { g with
          commitOwner := g.commitOwner.insert commit change
          changes := g.changes.insert change ⟨change, [commit], .draft⟩ } :=
        h.insert rfl (List.cons_ne_nil _ _) (List.forall_mem_singleton.mpr hnew) hkept
      exact ⟨_, rfl, htracked, rfl, by simp [first, addChange, hc'], hother _, hnew, hkept⟩
  | some c =>
      have hc' : g.changes[change]? = some c := hc
      -- a tracked change has a first revision, and a revision more leaves it the first
      obtain ⟨r, hr⟩ : ∃ r, c.revisions.head? = some r := by
        cases hrev : c.revisions with
        | nil => exact absurd hrev (h.revised change c hc)
        | cons r rest => exact ⟨r, rfl⟩
      have hfirst : g.first change = some r := (first_of_change hc).trans hr
      dsimp only
      split
      · rename_i hmem
        refine ⟨g, rfl, h, rfl, ?_, fun d _ => rfl, h.owned change c hc commit hmem, fun r hr => hr⟩
        rw [hfirst]
        rfl
      · have hadd : g.addRevision change commit = .ok { g with
            commitOwner := g.commitOwner.insert commit change
            changes := g.changes.insert change { c with revisions := c.revisions ++ [commit] } } := by
          unfold addRevision
          rw [hc']
        have howned : ∀ r ∈ c.revisions ++ [commit], ((g.commitOwner.insert commit change)[r]?).isSome = true := by
          refine List.forall_mem_append.mpr ⟨fun r hmem => hkept r (h.owned change c hc r hmem), ?_⟩
          exact List.forall_mem_singleton.mpr hnew
        have htracked : Tracked { g with
            commitOwner := g.commitOwner.insert commit change
            changes := g.changes.insert change { c with revisions := c.revisions ++ [commit] } } :=
          h.insert (h.draft change c hc) (by simp) howned hkept
        rw [hadd]
        exact ⟨_, rfl, htracked, rfl, by simp [first, hc', hr, List.head?_append], hother _, hnew, hkept⟩

/-- The commit from which the tip of a change is followed, once `oldTip` is one of its revisions. -/
def start (g : ChangeGraph) (change : ChangeId) (oldTip : CommitId) : CommitId := (g.first change).getD oldTip

/-- The edges that recording may make: none for a tip that stays, else one that closes no cycle. -/
def Recordable (g : ChangeGraph) (oldTip newTip : CommitId) : Prop :=
  newTip = oldTip ∨ ¬ Reaches g.newer newTip oldTip

/-- The edges with the new one. -/
def edges (g : ChangeGraph) (oldTip newTip : CommitId) : CommitId → Option CommitId :=
  if newTip = oldTip then g.newer else Function.update g.newer oldTip (some newTip)

/-- Both ends of an edge registered. -/
theorem ensureRevision_both (h : Tracked g) (change : ChangeId) (oldTip newTip : CommitId) :
    ∃ g₁ g₂ owner, ensureRevision g change oldTip = .ok g₁ ∧ ensureRevision g₁ change newTip = .ok g₂ ∧
      Extends g g₂ change oldTip g.newer ∧ (g₂.commitOwner[newTip]?).isSome = true ∧
      g₂.commitOwner[oldTip]? = some owner ∧ g₂.phaseOf owner ≠ .published := by
  obtain ⟨g₁, hensure, h₁⟩ := ensureRevision_ok h change oldTip
  obtain ⟨g₂, hensure', h₂⟩ := ensureRevision_ok h₁.tracked change newTip
  have hregistered := h₂.registered_of oldTip h₁.registered
  obtain ⟨owner, howner⟩ := Option.isSome_iff_exists.mp hregistered
  refine ⟨g₁, g₂, owner, hensure, hensure', ⟨h₂.tracked, h₂.newer_eq.trans h₁.newer_eq, ?_, ?_, hregistered, ?_⟩,
    h₂.registered, howner, ?_⟩
  · rw [h₂.first_self, h₁.first_self]
    rfl
  · exact fun d hd => (h₂.first_other d hd).trans (h₁.first_other d hd)
  · exact fun r hr => h₂.registered_of r (h₁.registered_of r hr)
  · unfold phaseOf
    cases hc : g₂.changes[owner]? with
    | none => simp
    | some c => simp [h₂.tracked.draft owner c hc]

theorem recordSupersession_ok (h : Tracked g) (change : ChangeId) (hrec : Recordable g oldTip newTip) :
    ∃ g', recordSupersession g change oldTip newTip = (.ok (), g') ∧
      Extends g g' change oldTip (edges g oldTip newTip) := by
  unfold recordSupersession edges
  by_cases hsame : newTip = oldTip
  · obtain ⟨g₁, hensure, h₁⟩ := ensureRevision_ok h change oldTip
    simp only [hensure, if_pos hsame]
    exact ⟨g₁, rfl, h₁⟩
  · obtain ⟨g₁, g₂, owner, hensure, hensure', h₂, hknown, howner, hphase⟩ := ensureRevision_both h change oldTip newTip
    have hsup : g₂.Supersedable oldTip newTip :=
      ⟨⟨owner, howner, hphase⟩, hknown, h₂.newer_eq ▸ hrec.resolve_left hsame⟩
    simp only [hensure, hensure', if_neg hsame, supersede_of_supersedable h₂.tracked.acyclic hsup]
    refine ⟨_, rfl, ⟨?_, h₂.tracked.draft, h₂.tracked.revised, h₂.tracked.owned⟩, ?_, h₂.first_self, h₂.first_other,
      h₂.registered, h₂.registered_of⟩
    · rw [newer_withEdge]
      exact h₂.tracked.acyclic.update hsup.apart
    · rw [newer_withEdge, h₂.newer_eq]

theorem recordSupersession_refused (h : Tracked g) (change : ChangeId) (hrec : ¬ Recordable g oldTip newTip) :
    ∃ g', recordSupersession g change oldTip newTip = (.error (.identity (.supersessionCycle oldTip newTip)), g') ∧
      Extends g g' change oldTip g.newer := by
  obtain ⟨hne, hback⟩ := not_or.mp hrec
  rw [not_not] at hback
  obtain ⟨g₁, g₂, owner, hensure, hensure', h₂, hknown, howner, hphase⟩ := ensureRevision_both h change oldTip newTip
  have hrefused : g₂.supersede oldTip newTip = .error (.supersessionCycle oldTip newTip) := by
    have hreach : g₂.reaches newTip oldTip = true := (reaches_iff h₂.tracked.acyclic _ _).mpr (h₂.newer_eq ▸ hback)
    have hknown' : (g₂.commitOwner[newTip]?).isNone = false := by
      rw [← Option.not_isSome, hknown]
      rfl
    unfold supersede
    simp [howner, hknown', hphase, hreach]
  unfold recordSupersession
  simp only [hensure, hensure', if_neg hne, hrefused]
  exact ⟨g₂, rfl, h₂⟩

/-! ## Where the tips go -/

/-- The old tip is on the chain of its change and nothing supersedes the new one, or the chain ends there anyway. -/
def Linked (g : ChangeGraph) (change : ChangeId) (oldTip newTip : CommitId) : Prop :=
  (Reaches g.newer (start g change oldTip) oldTip ∧ g.newer newTip = none) ∨
    newTip ∈ eval g.newer (start g change oldTip)

/-- The chain of a change does not run through the old tip, or ends where that of the new one does. -/
def Spared (g : ChangeGraph) (d : ChangeId) (oldTip newTip : CommitId) : Prop :=
  newTip = oldTip ∨ ∀ r, g.first d = some r → Reaches g.newer r oldTip →
    ∃ t, Reaches g.newer oldTip t ∧ Reaches g.newer newTip t

theorem tip_self_iff (hrec : Recordable g oldTip newTip)
    (h : Extends g g' change oldTip (edges g oldTip newTip)) : g'.tip change = some newTip ↔ Linked g change oldTip newTip := by
  obtain ⟨t, htip, ht⟩ := tip_mem_eval h.tracked.acyclic h.first_self
  have hends : g'.tip change = some newTip ↔ newTip ∈ eval (edges g oldTip newTip) (start g change oldTip) := by
    rw [htip, Option.some.injEq, ← h.newer_eq]
    constructor
    · rintro rfl
      exact ht
    · exact fun hnew => Part.mem_unique ht hnew
  rw [hends]
  unfold edges Linked
  by_cases hsame : newTip = oldTip
  · subst hsame
    rw [if_pos rfl, mem_eval]
    exact (or_self_iff).symm
  · rw [if_neg hsame]
    have hapart := hrec.resolve_left hsame
    by_cases hreach : Reaches g.newer (start g change oldTip) oldTip
    · rw [eval_update_of_reaches hapart hreach, mem_eval]
      constructor
      · exact fun hnew => .inl ⟨hreach, hnew.2⟩
      · rintro (hnew | hnew)
        · exact ⟨.refl, hnew.2⟩
        · exact ⟨.refl, (mem_eval.mp hnew).2⟩
    · rw [eval_update_of_not_reaches hreach]
      exact (or_iff_right fun hlinked => hreach hlinked.1).symm

theorem tip_other_iff (htracked : Tracked g) (hrec : Recordable g oldTip newTip)
    (h : Extends g g' change oldTip (edges g oldTip newTip)) (hd : d ≠ change) :
    g'.tip d = g.tip d ↔ Spared g d oldTip newTip := by
  unfold Spared
  cases hfirst : g.first d with
  | none =>
      rw [tip_eq_none hfirst, tip_eq_none ((h.first_other d hd).trans hfirst)]
      exact iff_of_true rfl (.inr nofun)
  | some r =>
      rw [tip_eq_iff htracked.acyclic h.tracked.acyclic hfirst ((h.first_other d hd).trans hfirst), h.newer_eq]
      unfold edges
      by_cases hsame : newTip = oldTip
      · rw [if_pos hsame]
        exact iff_of_true rfl (.inl hsame)
      · rw [if_neg hsame, or_iff_right hsame]
        have hapart := hrec.resolve_left hsame
        by_cases hreach : Reaches g.newer r oldTip
        · obtain ⟨t, -, ht⟩ := tip_mem_eval htracked.acyclic hfirst
          rw [reaches_eval hreach] at ht
          rw [eval_update_of_reaches hapart hreach, reaches_eval hreach, ← exists_common_iff ht]
          simp [hreach]
        · rw [eval_update_of_not_reaches hreach]
          refine iff_of_true rfl fun r' hr' hreach' => ?_
          cases hr'
          exact absurd hreach' hreach

end Omoplata
