import AuruPm.Lib.Antichain
import Mathlib.Data.List.Infix

/-!
# Watched folders and added projects

The two lists of paths that the application keeps. Watching a folder collapses overlapping roots
but leaves the projects alone, so a project that was added before its folder was watched stays.
-/

namespace AuruPm

set_option autoImplicit false

variable {Component : Type} [DecidableEq Component]

/-- `Path::starts_with`, over the components of the paths. -/
def startsWith (path base : List Component) : Bool := base <+: path

structure AppState (Component : Type) where
  watchedFolders : List (List Component)
  projects : List (List Component)

namespace AppState

/-- `AppState::default` -/
def initial : AppState Component := ⟨[], []⟩

def watch (s : AppState Component) (path : List Component) : AppState Component :=
  if s.watchedFolders.any fun known => startsWith path known then s
  else
    { s with
      watchedFolders := (s.watchedFolders.filter fun known => !startsWith known path) ++ [path] }

def isWatched (s : AppState Component) (root : List Component) : Bool :=
  s.watchedFolders.any fun folder => startsWith root folder

def addProject (s : AppState Component) (root : List Component) : AppState Component :=
  if s.isWatched root then s
  else if s.projects.any fun known => known = root then s
  else { s with projects := s.projects ++ [root] }

end AppState

inductive AddCall (Component : Type) where
  | watch (path : List Component)
  | addProject (root : List Component)

def AppState.perform (s : AppState Component) : AddCall Component → AppState Component
  | .watch path => s.watch path
  | .addProject root => s.addProject root

/-- The state after a list of calls on the default state. -/
def added (calls : List (AddCall Component)) : AppState Component :=
  calls.foldl AppState.perform .initial

/-! The two lists. -/

/-- The folders of the watch calls. -/
def watchCalls (calls : List (AddCall Component)) : List (List Component) :=
  calls.filterMap fun
    | .watch path => some path
    | .addProject _ => none

omit [DecidableEq Component] in
theorem mem_watchCalls {calls : List (AddCall Component)} {path : List Component} :
    path ∈ watchCalls calls ↔ .watch path ∈ calls := by
  rw [watchCalls, List.mem_filterMap]
  constructor
  · rintro ⟨call, hcall, heq⟩
    cases call with
    | watch path' => exact Option.some.inj heq ▸ hcall
    | addProject root => cases heq
  · intro h
    exact ⟨.watch path, h, rfl⟩

theorem added_concat (calls : List (AddCall Component)) (call : AddCall Component) :
    added (calls ++ [call]) = (added calls).perform call := by
  rw [added, List.foldl_append]
  rfl

theorem watch_folders (s : AppState Component) (path : List Component) :
    (s.watch path).watchedFolders = Antichain.add (· <+: ·) path s.watchedFolders := by
  have hfilter : (s.watchedFolders.filter fun known => !startsWith known path) =
      s.watchedFolders.filter fun known => ¬ path <+: known := by
    simp only [startsWith, decide_not]
  rw [AppState.watch, Antichain.add, hfilter]
  by_cases hany : (s.watchedFolders.any fun known => known <+: path) = true
  · rw [if_pos hany]
    exact congrArg AppState.watchedFolders (if_pos hany)
  · rw [if_neg hany]
    exact congrArg AppState.watchedFolders (if_neg hany)

theorem watch_projects (s : AppState Component) (path : List Component) :
    (s.watch path).projects = s.projects := by
  rw [AppState.watch]
  split <;> rfl

theorem addProject_folders (s : AppState Component) (root : List Component) :
    (s.addProject root).watchedFolders = s.watchedFolders := by
  rw [AppState.addProject]
  split
  · rfl
  · split <;> rfl

theorem mem_addProject {s : AppState Component} {root p : List Component}
    (h : s.isWatched root = false) :
    p ∈ (s.addProject root).projects ↔ p ∈ s.projects ∨ p = root := by
  rw [AppState.addProject, h, if_neg Bool.false_ne_true]
  split
  · rename_i hany
    obtain ⟨known, hknown, heq⟩ := List.any_eq_true.mp hany
    exact ⟨Or.inl, fun hp => hp.elim id fun hp => hp ▸ of_decide_eq_true heq ▸ hknown⟩
  · rw [List.mem_append, List.mem_singleton]

/-- Watched are the folders of the watch calls that no other of them covers. -/
theorem keeps_added (calls : List (AddCall Component)) :
    Antichain.Keeps (· <+: ·) (watchCalls calls) (added calls).watchedFolders := by
  induction calls using List.reverseRecOn with
  | nil => exact Antichain.Keeps.nil _
  | append_singleton calls call ih =>
    rw [added_concat, watchCalls, List.filterMap_append]
    cases call with
    | watch path =>
      rw [AppState.perform, watch_folders]
      exact ih.add path
    | addProject root =>
      rw [AppState.perform, addProject_folders]
      exact (List.append_nil (watchCalls calls)).symm ▸ ih

/-! The projects. -/

/-- No added project lies under a folder of a watch call. -/
def AddsOutside (calls : List (AddCall Component)) : Prop :=
  ∀ root folder, .addProject root ∈ calls → .watch folder ∈ calls → ¬ folder <+: root

omit [DecidableEq Component] in
theorem AddsOutside.of_subset {calls calls' : List (AddCall Component)} (h : AddsOutside calls)
    (hsub : ∀ call ∈ calls', call ∈ calls) : AddsOutside calls' :=
  fun root folder hroot hfolder => h root folder (hsub _ hroot) (hsub _ hfolder)

theorem isWatched_iff {s : AppState Component} {root : List Component} :
    s.isWatched root = true ↔ ∃ folder ∈ s.watchedFolders, folder <+: root := by
  simp [AppState.isWatched, startsWith]

theorem watch_of_mem {calls : List (AddCall Component)} {folder : List Component}
    (h : folder ∈ (added calls).watchedFolders) : .watch folder ∈ calls :=
  mem_watchCalls.mp ((keeps_added calls).subset folder h)

/-- A project that is listed was added. -/
theorem addProject_of_mem {calls : List (AddCall Component)} {p : List Component}
    (h : p ∈ (added calls).projects) : .addProject p ∈ calls := by
  induction calls using List.reverseRecOn with
  | nil => cases h
  | append_singleton calls call ih =>
    rw [added_concat] at h
    cases call with
    | watch path =>
      rw [AppState.perform, watch_projects] at h
      exact List.mem_append_left _ (ih h)
    | addProject root =>
      rw [AppState.perform] at h
      cases hwatched : (added calls).isWatched root with
      | true =>
        rw [AppState.addProject, if_pos hwatched] at h
        exact List.mem_append_left _ (ih h)
      | false =>
        rcases (mem_addProject hwatched).mp h with h | rfl
        · exact List.mem_append_left _ (ih h)
        · exact List.mem_append_right _ (List.mem_singleton_self _)

/-- Where no project lies under a folder, every project that was added is listed. -/
theorem mem_projects_iff {calls : List (AddCall Component)} (h : AddsOutside calls)
    {p : List Component} : p ∈ (added calls).projects ↔ .addProject p ∈ calls := by
  refine ⟨addProject_of_mem, ?_⟩
  induction calls using List.reverseRecOn with
  | nil => exact nofun
  | append_singleton calls call ih =>
    have hbefore : AddsOutside calls := h.of_subset fun c hc => List.mem_append_left _ hc
    intro hp
    rw [added_concat]
    cases call with
    | watch path =>
      rw [AppState.perform, watch_projects]
      rcases List.mem_append.mp hp with hp | hp
      · exact ih hbefore hp
      · cases List.mem_singleton.mp hp
    | addProject root =>
      have hfree : (added calls).isWatched root = false := by
        rw [Bool.eq_false_iff]
        intro hwatched
        obtain ⟨folder, hfolder, hprefix⟩ := isWatched_iff.mp hwatched
        exact h root folder (List.mem_append_right _ (List.mem_singleton_self _))
          (List.mem_append_left _ (watch_of_mem hfolder)) hprefix
      refine (mem_addProject hfree).mpr ?_
      rcases List.mem_append.mp hp with hp | hp
      · exact Or.inl (ih hbefore hp)
      · exact Or.inr (AddCall.addProject.inj (List.mem_singleton.mp hp))

/-! Orders. -/

/-- What is watched and listed does not depend on the order of the calls, and every path is covered
once. -/
structure OrderFree (calls : List (AddCall Component)) : Prop where
  folders : ∀ calls', calls.Perm calls' → ∀ p,
    p ∈ (added calls').watchedFolders ↔ p ∈ (added calls).watchedFolders
  projects : ∀ calls', calls.Perm calls' → ∀ p,
    p ∈ (added calls').projects ↔ p ∈ (added calls).projects
  apart : (added calls).watchedFolders.Pairwise fun a b => ¬ a <+: b ∧ ¬ b <+: a
  covers : ∀ folder, .watch folder ∈ calls → ∃ w ∈ (added calls).watchedFolders, w <+: folder
  outside : ∀ p ∈ (added calls).projects, ∀ w ∈ (added calls).watchedFolders, ¬ w <+: p

theorem folders_perm {calls calls' : List (AddCall Component)} (h : calls.Perm calls')
    (p : List Component) :
    p ∈ (added calls').watchedFolders ↔ p ∈ (added calls).watchedFolders := by
  refine (keeps_added calls').same (keeps_added calls) ?_ p
  intro x
  rw [mem_watchCalls, mem_watchCalls, h.mem_iff]

/-- Nothing that is watched keeps a project away when the projects are added first. -/
theorem projects_of_adds {calls : List (AddCall Component)} (h : ∀ f, .watch f ∉ calls)
    {p : List Component} (hp : .addProject p ∈ calls) (watches : List (AddCall Component))
    (hwatches : ∀ root, .addProject root ∉ watches) : p ∈ (added (calls ++ watches)).projects := by
  induction watches using List.reverseRecOn with
  | nil =>
    rw [List.append_nil]
    exact (mem_projects_iff fun _ folder _ hfolder => absurd hfolder (h folder)).mpr hp
  | append_singleton watches call ih =>
    have hp' := ih fun root hroot => hwatches root (List.mem_append_left _ hroot)
    rw [← List.append_assoc, added_concat]
    cases call with
    | watch path => rwa [AppState.perform, watch_projects]
    | addProject root =>
      exact absurd (List.mem_append_right _ (List.mem_singleton_self _)) (hwatches root)

def AddCall.isAdd : AddCall Component → Bool
  | .addProject _ => true
  | .watch _ => false

/-- Adding is free of order exactly when no added project lies under a folder that is watched. -/
theorem orderFree_iff (calls : List (AddCall Component)) :
    OrderFree calls ↔ AddsOutside calls := by
  have hkeeps := keeps_added calls
  have hcovers : ∀ folder, .watch folder ∈ calls →
      ∃ w ∈ (added calls).watchedFolders, w <+: folder :=
    fun folder hfolder => hkeeps.covers folder (mem_watchCalls.mpr hfolder)
  constructor
  · intro h root folder hroot hfolder hprefix
    have hperm : calls.Perm
        ((calls.filter AddCall.isAdd) ++ calls.filter fun call => !call.isAdd) :=
      (List.filter_append_perm _ _).symm
    have hfirst : root ∈ (added ((calls.filter AddCall.isAdd) ++
        calls.filter fun call => !call.isAdd)).projects := by
      apply projects_of_adds
      · intro f hf
        exact Bool.false_ne_true (List.mem_filter.mp hf).2
      · exact List.mem_filter.mpr ⟨hroot, rfl⟩
      · intro r hr
        exact Bool.false_ne_true (List.mem_filter.mp hr).2
    obtain ⟨w, hw, hwfolder⟩ := hcovers folder hfolder
    exact h.outside root ((h.projects _ hperm root).mp hfirst) w hw (hwfolder.trans hprefix)
  · intro h
    refine ⟨fun calls' => folders_perm, ?_, hkeeps.apart, hcovers, ?_⟩
    · intro calls' hperm p
      have h' : AddsOutside calls' := h.of_subset fun call hcall => hperm.mem_iff.mpr hcall
      rw [mem_projects_iff h, mem_projects_iff h', hperm.mem_iff]
    · intro p hp w hw
      exact h p w (addProject_of_mem hp) (watch_of_mem hw)

/-- A song is added, and then its folder is watched. -/
theorem song_stays_listed :
    ¬ OrderFree [.addProject ["music", "Song Project"], .watch ["music"]] := by
  intro h
  exact h.outside ["music", "Song Project"] (by decide) ["music"] (by decide) (by decide)

end AuruPm
