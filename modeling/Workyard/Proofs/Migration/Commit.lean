import Workyard.Proofs.Disk.Moves
import Workyard.Proofs.Migration.Staging

/-!
# Committing

Committing moves files: first those that go aside, then the staged ones. The journal lists the
moves that were made; when one fails the disk is as they left it.
-/

namespace Workyard.Migration

set_option autoImplicit false

open Disk

/-- The move that a rename makes on a disk. -/
def Rename.move (d : Disk) (r : Rename) : Move :=
  (d.place r.source, d.place r.target)

theorem mem_sources {d : Disk} {rs : List Rename} {l : Location} :
    l ∈ (rs.map (·.move d)).map Prod.fst ↔ ∃ r ∈ rs, d.place r.source = l := by
  simp [Rename.move]

theorem mem_targets {d : Disk} {rs : List Rename} {l : Location} :
    l ∈ (rs.map (·.move d)).map Prod.snd ↔ ∃ r ∈ rs, d.place r.target = l := by
  simp [Rename.move]

/-- Files moved from one disk to the other; `d` tells the places and the directories. -/
structure Moved (d : Disk) (rs : List Rename) (d₁ d₂ : Disk) : Prop where
  directories : SameDirectories d d₂
  movable : ∀ r ∈ rs, d.Movable r.source r.target
  allows : d₁.view.Allows (rs.map (·.move d))
  view : d₂.view = d₁.view.moveAll (rs.map (·.move d))

variable {d d₁ d₂ d₃ : Disk} {r : Rename} {rs : List Rename} {s s₁ : Session} {n : Nat}

namespace Moved

theorem nil (h : SameDirectories d d₁) : Moved d [] d₁ d₁ :=
  ⟨h, by simp, trivial, rfl⟩

theorem cons_of_rename (hdirs : SameDirectories d d₁)
    (hr : d.view (d.place r.source) ≠ some .directory)
    (h : d₁.rename r.source r.target = .ok d₂) (hrs : SameDirectories d d₂ → Moved d rs d₂ d₃) :
    Moved d (r :: rs) d₁ d₃ := by
  have hsource := hdirs.place r.source
  have htarget := hdirs.place r.target
  obtain ⟨hmovable, ⟨c, hc⟩, hhere, hview⟩ := rename_eq_ok (hsource ▸ hdirs.view_ne hr) h
  rw [← hsource] at hc
  rw [← hsource, ← htarget] at hview
  have hdirs₂ : SameDirectories d d₂ := hdirs.trans
    (.of_move hhere hview (by simp [hc]) (htarget ▸ hmovable.targetFile))
  have hrs := hrs hdirs₂
  refine ⟨hrs.directories, ?_, ⟨by simp [hc], ?_⟩, ?_⟩
  · intro r' hr'
    rcases List.mem_cons.mp hr' with rfl | hr'
    · exact hdirs.symm.movable hmovable
    · exact hrs.movable r' hr'
  · exact hview ▸ hrs.allows
  · rw [hrs.view, hview]
    rfl

/-- Moves that pass one after the other are made. -/
theorem of_passes (hdirs : SameDirectories d s.disk)
    (hrs : ∀ r ∈ rs, d.view (d.place r.source) ≠ some .directory)
    (hp : Passes (moving rs) s s₁) : Moved d rs s.disk s₁.disk := by
  induction rs generalizing s with
  | nil =>
    obtain _ | _ := hp
    exact nil hdirs
  | cons r rs ih =>
    obtain _ | ⟨hmove, hrest⟩ := hp
    exact cons_of_rename hdirs (hrs r List.mem_cons_self) hmove.2.1 fun hdirs₂ =>
      ih hdirs₂ (fun r hr => hrs r (List.mem_cons_of_mem _ hr)) hrest

end Moved

theorem directories_of_succeeds (hdirs : SameDirectories d s.disk)
    (hr : d.view (d.place r.source) ≠ some .directory)
    (h : (Operation.move r.source r.target).Succeeds s s₁) : SameDirectories d s₁.disk := by
  have hp : Passes (moving [r]) s s₁ := .cons h (.nil s₁)
  refine (Moved.of_passes hdirs (fun r' hr' => ?_) hp).directories
  rw [List.mem_singleton.mp hr']
  exact hr

theorem run_rename_of_succeeds {p q : FilePath} (h : (Operation.move p q).Succeeds s s₁) :
    ∃ t, (Work.rename p q).run s = (.ok (), t) ∧ Alike t s₁ := by
  obtain ⟨hnext, hperform, hahead⟩ := h
  obtain ⟨d, ahead, lines⟩ := s
  have hrename : d.rename p q = .ok s₁.disk := hperform
  rcases ahead with _ | ⟨_ | m, ms⟩
  · exact ⟨⟨s₁.disk, [], lines⟩, by simp [Work.rename, Session.next, hrename], rfl, hahead.symm⟩
  · exact ⟨⟨s₁.disk, ms, lines⟩, by simp [Work.rename, Session.next, hrename], rfl, hahead.symm⟩
  · simp [Session.next] at hnext

theorem run_rename_of_fails {p q : FilePath} (h : (Operation.move p q).Fails s) :
    ∃ f, (Work.rename p q).run s = (.error f, s.next.2) := by
  obtain ⟨d, ahead, lines⟩ := s
  rcases ahead with _ | ⟨_ | m, ms⟩
  · obtain ⟨f, hf⟩ := h
    have hrename : d.rename p q = .error f := hf
    exact ⟨f, by simp [Work.rename, Session.next, hrename]⟩
  · obtain ⟨f, hf⟩ := h
    have hrename : d.rename p q = .error f := hf
    exact ⟨f, by simp [Work.rename, Session.next, hrename]⟩
  · exact ⟨m.fault, rfl⟩

theorem run_rename_eq_ok {p q : FilePath} (h : (Work.rename p q).run s = (.ok (), s₁)) :
    (Operation.move p q).Succeeds s s₁ := by
  obtain ⟨d, ahead, lines⟩ := s
  have hnone (ms : List (Option Mishap))
      (hnext : Session.next ⟨d, ahead, lines⟩ = (none, ⟨d, ms, lines⟩)) :
      (Operation.move p q).Succeeds ⟨d, ahead, lines⟩ s₁ := by
    simp only [Work.rename, hnext] at h
    cases hd : d.rename p q with
    | error f => simp [hd] at h
    | ok d' =>
      simp only [hd, Prod.mk.injEq, true_and] at h
      subst s₁
      exact ⟨by rw [hnext], hd, by rw [hnext]⟩
  rcases ahead with _ | ⟨_ | m, ms⟩
  · exact hnone [] rfl
  · exact hnone ms rfl
  · simp [Work.rename, Session.next] at h

def Rename.step (r : Rename) : Step :=
  .renamed r.source r.target

/-- The move that puts a staged file in its place. -/
def Staged.placing (f : Staged) : Rename :=
  ⟨f.temporary, f.path⟩

def Staged.step (f : Staged) : Step :=
  .replaced f.path f.previous

theorem StagedFor.map_placing {plan : Plan} {fs : List Staged} {ws : List FileWrite}
    (h : StagedFor plan d fs ws) : fs.map (·.placing) = ws.map (·.placing) := by
  have hfs : fs.map (·.placing) = (fs.map (·.path)).map fun p => ⟨temporaryOf p, p⟩ := by
    rw [List.map_map]
    exact List.map_congr_left fun f hf => by simp [Staged.placing, h.temporaries f hf]
  rw [hfs, h.paths, List.map_map]
  rfl

/-- Each item in turn is moved and leaves a step in the journal, on any disk with the
directories of `d`. -/
structure Commits {α : Type} (commit : List Step → List α → Work Interruption (List Step))
    (move : α → Rename) (step : α → Step) (d : Disk) (items : List α) : Prop where
  nil : ∀ journal s, (commit journal []).run s = (.ok journal, s)
  cons : ∀ journal, ∀ x ∈ items, ∀ xs s, SameDirectories d s.disk → ∃ s', Alike s' s ∧
    (∀ t, (Work.rename (move x).source (move x).target).run s' = (.ok (), t) →
      ∃ t', Alike t' t ∧ (commit journal (x :: xs)).run s =
        (commit (journal ++ [step x]) xs).run t') ∧
    ∀ f t, (Work.rename (move x).source (move x).target).run s' = (.error f, t) →
      ∃ e, (commit journal (x :: xs)).run s = (.error ⟨e, journal⟩, t)

theorem run_commitRenames_cons (journal : List Step) (r : Rename) (rs : List Rename) (s : Session) :
    ∃ s', Alike s' s ∧ (commitRenames journal (r :: rs)).run s =
      (do
        (Work.rename r.source r.target).mapError fun fault => ⟨.io r.source fault, journal⟩
        .say .info ("renamed: " ++ r.source.text ++ " -> " ++ r.target.text)
        commitRenames (journal ++ [r.step]) rs : Work Interruption (List Step)).run s' := by
  by_cases h : s.disk.has r.target
  · refine ⟨{ s with lines := s.lines ++ [⟨.warn, "replacing existing " ++ r.target.text⟩] },
      ⟨rfl, rfl⟩, ?_⟩
    conv => lhs; unfold commitRenames
    rw [Work.run_bind_of_ok (Work.run_disk s)]
    simp only [h, if_true]
    rfl
  · refine ⟨s, .refl s, ?_⟩
    conv => lhs; unfold commitRenames
    rw [Work.run_bind_of_ok (Work.run_disk s)]
    simp only [h]
    rfl

theorem commitRenames_commits (d : Disk) (rs : List Rename) :
    Commits commitRenames id Rename.step d rs where
  nil _ _ := rfl
  cons journal r _ rs s _ := by
    obtain ⟨s', halike, hrun⟩ := run_commitRenames_cons journal r rs s
    refine ⟨s', halike, fun t ht => ?_, fun f t ht => ?_⟩
    · simp only [id] at ht
      refine ⟨{ t with lines := t.lines ++ [⟨.info, "renamed: " ++ r.source.text ++ " -> " ++
        r.target.text⟩] }, ?_, ?_⟩
      · exact ⟨rfl, rfl⟩
      · rw [hrun, Work.run_bind_of_ok (Work.run_mapError_of_ok ht _),
          Work.run_bind_of_ok (Work.run_say ..)]
    · simp only [id] at ht
      refine ⟨.io r.source f, ?_⟩
      rw [hrun, Work.run_bind_of_error (Work.run_mapError_of_error ht _)]

theorem commitFiles_commits {fs : List Staged} (h : ∀ f ∈ fs, d.Reaches (temporaryOf f.path)) :
    Commits commitFiles Staged.placing Staged.step d fs where
  nil _ _ := rfl
  cons journal f hf fs s hdirs := by
    have hparent := Work.run_mapError_of_ok (run_makeParent (hdirs.reaches (h f hf)))
      (⟨·, journal⟩ : MigrationError → Interruption)
    refine ⟨s, .refl s, fun t ht => ?_, fun g t ht => ?_⟩
    · simp only [Staged.placing] at ht
      refine ⟨{ t with lines := t.lines ++ [⟨.info, "wrote: " ++ f.path.text⟩] }, ?_, ?_⟩
      · exact ⟨rfl, rfl⟩
      · conv => lhs; unfold commitFiles
        rw [Work.run_bind_of_ok hparent, Work.run_bind_of_ok (Work.run_mapError_of_ok ht _),
          Work.run_bind_of_ok (Work.run_say ..)]
        rfl
    · simp only [Staged.placing] at ht
      refine ⟨.io f.path g, ?_⟩
      conv => lhs; unfold commitFiles
      rw [Work.run_bind_of_ok hparent, Work.run_bind_of_error (Work.run_mapError_of_error ht _)]

namespace Commits

variable {α : Type} {commit : List Step → List α → Work Interruption (List Step)}
variable {move : α → Rename} {step : α → Step} {items xs : List α}
variable (hc : Commits commit move step d items) (hdirs : SameDirectories d s.disk)
variable (hmem : ∀ x ∈ xs, x ∈ items ∧ d.view (d.place (move x).source) ≠ some .directory)
include hc hdirs hmem

theorem run_of_passes (journal : List Step) (hp : Passes (moving (xs.map move)) s s₁) :
    ∃ t, (commit journal xs).run s = (.ok (journal ++ xs.map step), t) ∧ Alike t s₁ := by
  induction xs generalizing s s₁ journal with
  | nil =>
    obtain _ | _ := hp
    exact ⟨s, by simp [hc.nil], .refl s⟩
  | cons x xs ih =>
    obtain _ | ⟨hmove, hrest⟩ := hp
    obtain ⟨hx, hsource⟩ := hmem x List.mem_cons_self
    obtain ⟨s', hs', hok, _⟩ := hc.cons journal x hx xs s hdirs
    obtain ⟨t, ht, halike⟩ := run_rename_of_succeeds (hmove.alike hs')
    obtain ⟨t', ht', hrun⟩ := hok t ht
    have halike' := ht'.trans halike
    have hdirs' := directories_of_succeeds hdirs hsource hmove
    obtain ⟨s₂, hrest, halike₂⟩ := hrest.alike halike'
    obtain ⟨t₁, hrun₁, halike₁⟩ := @ih t' s₂ (halike'.1 ▸ hdirs')
      (fun x hx => hmem x (List.mem_cons_of_mem _ hx)) (journal ++ [step x]) hrest
    exact ⟨t₁, by rw [hrun, hrun₁]; simp, halike₁.trans halike₂⟩

theorem run_of_failsAt (journal : List Step) (h : FailsAt (moving (xs.map move)) n s) :
    ∃ e t s', (commit journal xs).run s = (.error ⟨e, journal ++ (xs.take n).map step⟩, t) ∧
      Passes (moving ((xs.take n).map move)) s s' ∧ t.disk = s'.disk := by
  induction xs generalizing s journal n with
  | nil => nomatch h
  | cons x xs ih =>
    obtain ⟨hx, hsource⟩ := hmem x List.mem_cons_self
    obtain ⟨s', hs', hok, herror⟩ := hc.cons journal x hx xs s hdirs
    rcases h with hfails | ⟨hmove, hrest⟩
    · obtain ⟨f, hf⟩ := run_rename_of_fails (hfails.alike hs')
      obtain ⟨e, hrun⟩ := herror f _ hf
      exact ⟨e, s'.next.2, s, by simpa using hrun, .nil s, (next_disk s').trans hs'.1⟩
    · obtain ⟨t, ht, halike⟩ := run_rename_of_succeeds (hmove.alike hs')
      obtain ⟨t', ht', hrun⟩ := hok t ht
      have halike' := ht'.trans halike
      have hdirs' := directories_of_succeeds hdirs hsource hmove
      obtain ⟨e, t₁, s₂, hrun₁, hp, hdisk⟩ := ih (halike'.1 ▸ hdirs')
        (fun x hx => hmem x (List.mem_cons_of_mem _ hx)) (journal ++ [step x]) (hrest.alike halike')
      obtain ⟨s₃, hp', halike₃⟩ := hp.alike halike'.symm
      exact ⟨e, t₁, s₃, by rw [hrun, hrun₁]; simp, .cons hmove hp', hdisk.trans halike₃.1.symm⟩

theorem run_eq_ok {journal journal' : List Step} {t : Session}
    (h : (commit journal xs).run s = (.ok journal', t)) :
    journal' = journal ++ xs.map step ∧ ∃ s', Passes (moving (xs.map move)) s s' ∧ Alike t s' := by
  induction xs generalizing s journal with
  | nil =>
    rw [hc.nil] at h
    obtain ⟨rfl, rfl⟩ : journal = journal' ∧ s = t := by simpa using h
    exact ⟨by simp, s, .nil s, .refl s⟩
  | cons x xs ih =>
    obtain ⟨hx, hsource⟩ := hmem x List.mem_cons_self
    obtain ⟨s', hs', hok, herror⟩ := hc.cons journal x hx xs s hdirs
    obtain ⟨r, u, hu⟩ : ∃ r u, (Work.rename (move x).source (move x).target).run s' = (r, u) :=
      ⟨_, _, rfl⟩
    cases r with
    | error f =>
      obtain ⟨e, hrun⟩ := herror f u hu
      simp [hrun] at h
    | ok _ =>
      have hmove := (run_rename_eq_ok hu).alike hs'.symm
      obtain ⟨t', ht', hrun⟩ := hok u hu
      have hdirs' := directories_of_succeeds hdirs hsource hmove
      rw [hrun] at h
      obtain ⟨hjournal, s₁, hp, halike⟩ := ih (ht'.1 ▸ hdirs')
        (fun x hx => hmem x (List.mem_cons_of_mem _ hx)) h
      obtain ⟨s₂, hp', halike'⟩ := hp.alike ht'.symm
      exact ⟨by rw [hjournal]; simp, s₂, .cons hmove hp', halike.trans halike'.symm⟩

end Commits

theorem sources_append {fs : List Staged}
    (hrs : ∀ r ∈ rs, d.view (d.place r.source) ≠ some .directory)
    (hfs : ∀ f ∈ fs, d.view (d.place f.temporary) ≠ some .directory) :
    ∀ r ∈ rs ++ fs.map (·.placing), d.view (d.place r.source) ≠ some .directory := by
  intro r hr
  rcases List.mem_append.mp hr with hr | hr
  · exact hrs r hr
  · obtain ⟨f, hf, rfl⟩ := List.mem_map.mp hr
    exact hfs f hf

section Commit

variable {plan : Plan} {staged : List Staged} (hdirs : SameDirectories d s.disk)
variable (hrs : ∀ r ∈ plan.renames, d.view (d.place r.source) ≠ some .directory)
variable (hfs : ∀ f ∈ staged, d.Reaches (temporaryOf f.path) ∧
  d.view (d.place f.temporary) ≠ some .directory)
include hdirs hrs hfs

/-- The journal of a commit that fails lists the moves that were made. -/
theorem run_commit_of_failsAt (h : FailsAt (moving (plan.renames ++ staged.map (·.placing))) n s) :
    ∃ e t, (commit plan staged).run s = (.error ⟨e, (plan.renames.take n).map (·.step) ++
        (staged.take (n - plan.renames.length)).map (·.step)⟩, t) ∧
      Moved d (plan.renames.take n ++ (staged.take (n - plan.renames.length)).map (·.placing))
        s.disk t.disk := by
  have hcr := commitRenames_commits d plan.renames
  have hcf := commitFiles_commits fun f hf => (hfs f hf).1
  have hrs' : ∀ r ∈ plan.renames, r ∈ plan.renames ∧
      d.view (d.place r.source) ≠ some .directory := fun r hr => ⟨hr, hrs r hr⟩
  have hmoving : moving plan.renames = moving (plan.renames.map id) := by rw [List.map_id]
  rw [moving_append] at h
  rcases FailsAt.of_append h with h | ⟨s₁, hp, hn, h⟩
  · have hn : n - plan.renames.length = 0 := by
      have := h.lt_length
      simp only [moving, List.length_map] at this
      omega
    rw [hmoving] at h
    obtain ⟨e, t, s', hrun, hp, hdisk⟩ := hcr.run_of_failsAt hdirs hrs' [] h
    rw [List.map_id] at hp
    refine ⟨e, t, ?_, ?_⟩
    · unfold commit
      rw [Work.run_bind_of_error hrun, hn]
      simp
    · rw [hdisk, hn]
      simpa using Moved.of_passes hdirs (fun r hr => hrs r (List.mem_of_mem_take hr)) hp
  · have hlen : (moving plan.renames).length = plan.renames.length := List.length_map _
    rw [hlen] at hn h
    have hdirs₁ := (Moved.of_passes hdirs hrs hp).directories
    have hp' := hp
    rw [hmoving] at hp'
    obtain ⟨t₁, hrun₁, halike⟩ := hcr.run_of_passes hdirs hrs' [] hp'
    obtain ⟨e, t, s', hrun, hq, hdisk⟩ := hcf.run_of_failsAt (halike.1 ▸ hdirs₁)
      (fun f hf => ⟨hf, (hfs f hf).2⟩) ([] ++ plan.renames.map (·.step)) (h.alike halike)
    obtain ⟨s₂, hq, halike₂⟩ := hq.alike halike.symm
    rw [List.take_of_length_le hn]
    refine ⟨e, t, ?_, ?_⟩
    · unfold commit
      rw [Work.run_bind_of_ok hrun₁, hrun]
      simp
    · rw [hdisk, ← halike₂.1]
      exact Moved.of_passes hdirs (sources_append hrs fun f hf => (hfs f (List.mem_of_mem_take hf)).2)
        (moving_append .. ▸ hp.append hq)

theorem run_commit_eq_ok {journal : List Step} {t : Session}
    (h : (commit plan staged).run s = (.ok journal, t)) :
    journal = plan.renames.map (·.step) ++ staged.map (·.step) ∧
      Moved d (plan.renames ++ staged.map (·.placing)) s.disk t.disk := by
  have hcr := commitRenames_commits d plan.renames
  have hcf := commitFiles_commits fun f hf => (hfs f hf).1
  unfold commit at h
  obtain ⟨journal₁, s₁, hrun, h⟩ := Work.run_bind_eq_ok h
  obtain ⟨rfl, s₂, hp, halike⟩ := hcr.run_eq_ok hdirs (fun r hr => ⟨hr, hrs r hr⟩) hrun
  rw [List.map_id] at hp
  have hdirs₁ := (Moved.of_passes hdirs hrs hp).directories
  obtain ⟨rfl, s₃, hq, halike'⟩ := hcf.run_eq_ok (halike.1 ▸ hdirs₁)
    (fun f hf => ⟨hf, (hfs f hf).2⟩) h
  obtain ⟨s₄, hq, halike₂⟩ := hq.alike halike.symm
  refine ⟨by simp, ?_⟩
  rw [halike'.1, ← halike₂.1]
  exact Moved.of_passes hdirs (sources_append hrs fun f hf => (hfs f hf).2)
    (moving_append .. ▸ hp.append hq)

end Commit

end Workyard.Migration
