import AuruPm.Lib.Boundary
import AuruPm.ServerIsolation
import Mathlib.Data.List.Induction

/-!
# Retention on the server is permanent for anchored heads

The history of a project is a line of first parents with a boundary. A request adds a commit,
moves the head or moves the boundary up the line that is shown. The boundary is not asked when
the head moves, so a head below it, or beside it, brings removed versions back.
-/

namespace AuruPm

set_option autoImplicit false

open SortedAssoc Boundary

namespace Server

section Histories
variable {Bytes Hash : Type}

def StoredProject.parent (project : StoredProject) (commits : List (String × Value)) (id : String) :
    Option String :=
  if id ∈ project.commits then (get? commits id).bind firstParent else none

def StoredProject.timeline (project : StoredProject) (commits : List (String × Value)) :
    Timeline String :=
  ⟨{id | id ∈ project.commits}, project.parent commits, project.head, project.historyFloor⟩

/-- The history of a project; one that is not there has none. -/
def timeline (s : State Bytes) (owner : Principal) (handle : String) : Timeline String :=
  ((projectFor s.db owner handle).getD {}).timeline s.db.commits

/-- Some page of the history lists the version. -/
def InHistory (s : State Bytes) (owner : Principal) (handle id : String) : Prop :=
  ∃ (limit : Option Nat) (before : Option String) (commits : List Value),
    (∀ n ∈ limit, n < 2 ^ 32) ∧ getHistory owner handle limit before s = .history commits ∧
      ∃ value ∈ commits, value.get "id" = some (.string id)

variable [DecidableEq Hash]

def Request.isRetention (request : Request Bytes Hash) : Prop :=
  ∃ handle rule, request.call = .postRetention handle rule

/-- The versions that some retention request of a run takes out of the history. -/
def TakenOut (c : Config Bytes Hash) (s : State Bytes) (requests : List (Request Bytes Hash))
    (owner : Principal) (handle : String) : Set String :=
  {id | ∃ before request after, requests = before ++ request :: after ∧ request.isRetention ∧
    InHistory (run c s before) owner handle id ∧
      ¬InHistory (run c s (before ++ [request])) owner handle id}

/-- What was taken out is not in the history at the end of the run. -/
def StaysOut (c : Config Bytes Hash) (s : State Bytes) (requests : List (Request Bytes Hash))
    (owner : Principal) (handle : String) : Prop :=
  ∀ id ∈ TakenOut c s requests owner handle, ¬InHistory (run c s requests) owner handle id

/-- A request that moves the head of the project. -/
def Advances (c : Config Bytes Hash) (s : State Bytes) (request : Request Bytes Hash)
    (owner : Principal) (handle toHead : String) : Prop :=
  ∃ identity authenticated fromHead project,
    @requireAuth Bytes c.auth request.token = .ok (identity, authenticated) ∧
      identity.principal = owner ∧ request.call = .postHead handle fromHead toHead ∧
        projectFor s.db owner handle = some project ∧ project.head = fromHead ∧
          toHead ∈ project.commits ∧ (s.db.dataDir = true → request.faults.persist = none)

/-- Every new head has the boundary of its project on its line, or none of these versions. -/
def HeadAnchored (c : Config Bytes Hash) (s : State Bytes) (request : Request Bytes Hash)
    (owner : Principal) (handle : String) (removed : Set String) : Prop :=
  ∀ toHead, Advances c s request owner handle toHead →
    (timeline s owner handle).Anchored removed toHead

end Histories

/-! What the loops read. -/

section Loops
variable {Bytes Hash : Type} {F : Formats Bytes Hash} {commits : List (String × Value)}
  {project : StoredProject}

theorem firstParent_canonicalValue (commit : Commit Hash) :
    firstParent (canonicalValue F commit) = commit.parents.head?.map F.hashText := by
  have hparents : (canonicalValue F commit).get "parents" =
      some (.array (commit.parents.map (hashValue F))) := by
    cases hm : commit.metadata <;>
      simp [canonicalValue, commitValue, structValue, Value.remove, Value.get, skipNone, get?_erase,
        get?_insert, hm]
  rw [firstParent, hparents]
  cases commit.parents with
  | nil => rfl
  | cons parent parents => rfl

theorem summaryOf_id (id : String) (commit : Commit Hash) :
    (summaryOf (fullCommit id (canonicalValue F commit))).get "id" = some (.string id) := by
  simp [summaryOf, fullCommit, canonicalValue, commitValue, structValue, Value.remove, Value.set,
    Value.get, get?_insert]

theorem parent_of_stored {id : String} {value : Value} (hlisted : id ∈ project.commits)
    (hget : get? commits id = some value) : project.parent commits id = firstParent value := by
  rw [StoredProject.parent, if_pos hlisted, hget, Option.bind_some]

/-- The commits of a line are in the project, and stored. -/
def Stored (commits : List (String × Value)) (project : StoredProject) (line : List String) :
    Prop :=
  ∀ id ∈ line, id ∈ project.commits ∧ (get? commits id).isSome

/-- The loop of `post_retention` reads a line down to the boundary. -/
theorem visibleHistory_eq {start : Option String} {line : List String}
    (h : Walk.Chain (fun k => (.ok k : Except Empty String)) (project.parent commits)
      (fun _ => false) start line)
    (hstored : Stored commits project line) {rounds : Nat} (hrounds : line.length ≤ rounds)
    (history : List (String × Int)) :
    ∃ tail, visibleHistory commits project rounds start history = some (history ++ tail) ∧
      tail.map Prod.fst = upTo project.historyFloor line := by
  induction h generalizing rounds history with
  | nil => exact ⟨[], by cases rounds <;> simp [visibleHistory], rfl⟩
  | stop hr hs => cases hs
  | @cons k v vs hr hs rest ih =>
    cases hr
    obtain ⟨hlisted, hsome⟩ := hstored k List.mem_cons_self
    obtain ⟨value, hget⟩ := Option.isSome_iff_exists.mp hsome
    obtain ⟨rounds, rfl⟩ : ∃ n, rounds = n + 1 := ⟨rounds - 1, by simp at hrounds; omega⟩
    rw [visibleHistory, hget]
    simp only [hlisted, not_true_eq_false, if_false]
    by_cases hfloor : some k = project.historyFloor
    · rw [if_pos hfloor, upTo, if_pos hfloor]
      exact ⟨[(k, timestampOf value)], rfl, rfl⟩
    · rw [if_neg hfloor, upTo, if_neg hfloor]
      rw [parent_of_stored hlisted hget] at ih
      obtain ⟨tail, htail, hids⟩ := ih (fun id hid => hstored id (List.mem_cons_of_mem _ hid))
        (by simpa using hrounds) (history ++ [(k, timestampOf value)])
      exact ⟨(k, timestampOf value) :: tail, by rw [htail, List.append_assoc]; rfl,
        by rw [List.map_cons, hids]⟩

/-- The loop of `get_history` lists versions of the line down to the boundary. -/
theorem historyLoop_lists {start : Option String} {line : List String}
    (h : Walk.Chain (fun k => (.ok k : Except Empty String)) (project.parent commits)
      (fun _ => false) start line)
    {limit : Nat} {before : Option String} {rounds : Nat} {started : Bool}
    {out result : List Value}
    (hloop : historyLoop commits project limit before rounds start started out = some result)
    {value : Value} (hvalue : value ∈ result) :
    value ∈ out ∨ ∃ id ∈ upTo project.historyFloor line, ∃ stored,
      get? commits id = some stored ∧ value = summaryOf (fullCommit id stored) := by
  induction h generalizing rounds started out with
  | nil =>
    cases rounds <;> cases hloop <;> exact Or.inl hvalue
  | stop hr hs => cases hs
  | @cons k v vs hr hs rest ih =>
    cases hr
    cases rounds with
    | zero => cases hloop
    | succ rounds =>
      rw [historyLoop] at hloop
      by_cases hlisted : k ∈ project.commits
      · rw [if_neg (not_not.mpr hlisted)] at hloop
        cases hget : get? commits k with
        | none =>
          rw [hget] at hloop
          cases hloop
          exact Or.inl hvalue
        | some stored =>
          rw [hget] at hloop
          simp only at hloop
          generalize hout : (if started = true then out ++ [summaryOf (fullCommit k stored)]
            else out) = out' at hloop
          have hnew : value ∈ out' → value ∈ out ∨
              ∃ id ∈ upTo project.historyFloor (k :: vs), ∃ stored,
                get? commits id = some stored ∧ value = summaryOf (fullCommit id stored) := by
            intro hmem
            rw [← hout] at hmem
            split at hmem
            · rcases List.mem_append.mp hmem with hmem | hmem
              · exact Or.inl hmem
              · refine Or.inr ⟨k, ?_, stored, hget, List.mem_singleton.mp hmem⟩
                rw [upTo]
                split <;> exact List.mem_cons_self
            · exact Or.inl hmem
          split at hloop
          · cases hloop
            exact hnew hvalue
          · split at hloop
            · cases hloop
              exact hnew hvalue
            · rename_i hfloor
              rw [parent_of_stored hlisted hget] at ih
              rcases ih hloop with hmem | ⟨id, hid, stored', hget', hvalue'⟩
              · exact hnew hmem
              · refine Or.inr ⟨id, ?_, stored', hget', hvalue'⟩
                rw [upTo, if_neg hfloor]
                exact List.mem_cons_of_mem _ hid
      · rw [if_pos hlisted] at hloop
        cases hloop
        exact Or.inl hvalue

/-- Asked for one version after the one above it, the loop lists every version that is shown. -/
theorem historyLoop_page {above after : List String} {id : String} {start : Option String}
    (h : Walk.Chain (fun k => (.ok k : Except Empty String)) (project.parent commits)
      (fun _ => false) start (above ++ id :: after))
    (hnodup : (above ++ id :: after).Nodup)
    (hshown : id ∈ upTo project.historyFloor (above ++ id :: after))
    (hstored : Stored commits project (above ++ id :: after)) {rounds : Nat}
    (hrounds : (above ++ id :: after).length ≤ rounds) {before : Option String} {started : Bool}
    (hbefore : if above = [] then started = true else
      started = false ∧ before = above.getLast?) :
    ∃ stored, get? commits id = some stored ∧
      historyLoop commits project 1 before rounds start started [] =
        some [summaryOf (fullCommit id stored)] := by
  obtain ⟨rounds, rfl⟩ : ∃ n, rounds = n + 1 := ⟨rounds - 1, by simp at hrounds; omega⟩
  induction above generalizing start rounds started with
  | nil =>
    obtain ⟨hlisted, hsome⟩ := hstored id List.mem_cons_self
    obtain ⟨stored, hget⟩ := Option.isSome_iff_exists.mp hsome
    rw [if_pos rfl] at hbefore
    cases h with
    | stop hr hs => cases hs
    | cons hr hs rest =>
      cases hr
      refine ⟨stored, hget, ?_⟩
      simp [historyLoop, hget, hlisted, hbefore]
  | cons k above ih =>
    rw [List.cons_append] at h hnodup hshown hstored hrounds
    obtain ⟨hlisted, hsome⟩ := hstored k List.mem_cons_self
    obtain ⟨value, hget⟩ := Option.isSome_iff_exists.mp hsome
    obtain ⟨hnew, hnodup'⟩ := List.nodup_cons.mp hnodup
    have hfloor : some k ≠ project.historyFloor := by
      intro hfloor
      rw [upTo, if_pos hfloor] at hshown
      exact hnew (List.mem_singleton.mp hshown ▸ List.mem_append_right _ List.mem_cons_self)
    rw [upTo, if_neg hfloor] at hshown
    have hshown' : id ∈ upTo project.historyFloor (above ++ id :: after) := by
      refine (List.mem_cons.mp hshown).resolve_left fun hid => hnew ?_
      exact hid ▸ List.mem_append_right _ List.mem_cons_self
    obtain ⟨hwaiting, hlast⟩ := (if_neg (List.cons_ne_nil k above)).mp hbefore
    obtain ⟨rounds, rfl⟩ : ∃ n, rounds = n + 1 := ⟨rounds - 1, by simp at hrounds; omega⟩
    generalize hline : k :: (above ++ id :: after) = line at h
    cases h with
    | nil => cases hline
    | stop hr hs => cases hs
    | cons hr hs rest =>
      cases hr
      cases hline
      rw [parent_of_stored hlisted hget] at rest
      have hnext : if above = [] then decide (some k = before) = true else
          decide (some k = before) = false ∧ before = above.getLast? := by
        by_cases habove : above = []
        · rw [if_pos habove, hlast, habove]
          simp
        · rw [if_neg habove, hlast, List.getLast?_cons]
          rw [List.getLast?_eq_some_getLast habove, Option.getD_some, decide_eq_false_iff_not]
          refine ⟨fun hsame => hnew ?_, rfl⟩
          rw [Option.some.inj hsame]
          exact List.mem_append_left _ (List.getLast_mem habove)
      obtain ⟨stored, hgot, hloop⟩ := ih rest hnodup' hshown'
        (fun x hx => hstored x (List.mem_cons_of_mem _ hx)) hnext rounds
        (by simpa using hrounds)
      refine ⟨stored, hgot, ?_⟩
      rw [historyLoop, hget]
      simp only [hlisted, hwaiting, hfloor, not_true_eq_false, Bool.false_eq_true, if_false,
        false_and, Bool.false_or]
      exact hloop

end Loops

/-! What is in the history. -/

section Pages
variable {Bytes Hash : Type} {c : Config Bytes Hash} {s : State Bytes} {owner : Principal}
  {handle : String} {removed : Set String}

theorem timeline_found {project : StoredProject}
    (found : projectFor s.db owner handle = some project) :
    timeline s owner handle = project.timeline s.db.commits := by
  rw [timeline, found, Option.getD_some]

theorem timeline_missing (missing : projectFor s.db owner handle = none) :
    (timeline s owner handle).head = none := by
  rw [timeline, missing]
  rfl

theorem ProjectClosed.stored {project : StoredProject} (h : ProjectClosed c owner s project)
    {line : List String} (hline : ∀ id ∈ line, id ∈ project.commits) :
    Stored s.db.commits project line := by
  intro id hid
  obtain ⟨commit, -, -, hget⟩ := h.commits id (hline id hid)
  exact ⟨hline id hid, by rw [hget]; rfl⟩

theorem length_le_rounds {parent : String → Option String} {h : String} {line : List String}
    {project : StoredProject} (hline : Lineage parent h line)
    (hlisted : ∀ id ∈ line, id ∈ project.commits) : line.length ≤ project.commits.length + 1 :=
  Nat.le_succ_of_le (hline.nodup.subperm hlisted).length_le

theorem inHistory_iff (hclosed : Closed c s) (hgrounded : (timeline s owner handle).Grounded)
    {id : String} : InHistory s owner handle id ↔ id ∈ (timeline s owner handle).Shown := by
  cases found : projectFor s.db owner handle with
  | none =>
    constructor
    · rintro ⟨limit, before, commits, _, hpage, value, hvalue, _⟩
      rw [getHistory, found] at hpage
      cases hpage
      cases hvalue
    · rintro ⟨h, line, hhead, _⟩
      rw [timeline_missing found] at hhead
      cases hhead
  | some project =>
    have hproject := (hclosed.found found).2.2.2
    have htimeline := timeline_found found
    rw [htimeline] at hgrounded ⊢
    constructor
    · rintro ⟨limit, before, commits, _, hpage, value, hvalue, hid⟩
      rw [getHistory, found] at hpage
      simp only at hpage
      cases hhead : project.head with
      | none =>
        rw [hhead, historyLoop] at hpage
        cases hpage
        cases hvalue
      | some h =>
        obtain ⟨line, hline, hlisted⟩ := hgrounded.lines h (hgrounded.head h hhead)
        rw [hhead] at hpage
        rcases hloop : historyLoop s.db.commits project (limit.getD 100) before
            (project.commits.length + 1) (some h) before.isNone [] with _ | result
        · rw [hloop] at hpage
          cases hpage
        · rw [hloop] at hpage
          cases hpage
          rcases historyLoop_lists hline hloop hvalue with hnil | ⟨id', hid', stored, hget, rfl⟩
          · cases hnil
          · obtain ⟨commit, -, -, hget'⟩ := hproject.commits id' (hlisted id' (mem_of_mem_upTo hid'))
            rw [hget] at hget'
            cases hget'
            rw [summaryOf_id] at hid
            cases hid
            exact ⟨h, line, hhead, hline, hid'⟩
    · rintro ⟨h, line, hhead, hline, hshown⟩
      obtain ⟨line', hline', hlisted⟩ := hgrounded.lines h (hgrounded.head h hhead)
      rw [hline'.unique hline] at hlisted
      obtain ⟨above, after, rfl⟩ := List.append_of_mem (mem_of_mem_upTo hshown)
      have hstart : if above = [] then above.getLast?.isNone = true else
          above.getLast?.isNone = false ∧ above.getLast? = above.getLast? := by
        cases above with
        | nil => rfl
        | cons k above => simp
      obtain ⟨stored, hget, hloop⟩ := historyLoop_page hline hline.nodup hshown
        (hproject.stored hlisted) (length_le_rounds hline hlisted) hstart
      refine ⟨some 1, above.getLast?, _, by simp, ?_, summaryOf (fullCommit id stored),
        List.mem_singleton_self _, ?_⟩
      · rw [getHistory, found]
        change project.head = some h at hhead
        simp only [Option.getD_some, hhead, hloop]
      · obtain ⟨commit, -, -, hget'⟩ :=
          hproject.commits id (hlisted id (mem_of_mem_upTo hshown))
        rw [hget] at hget'
        cases hget'
        exact summaryOf_id id commit

/-- A version is in the history when the walk of `post_retention` meets it. -/
theorem visibleHistory_ids (hclosed : Closed c s) {project : StoredProject}
    (found : projectFor s.db owner handle = some project)
    (hgrounded : (timeline s owner handle).Grounded) :
    ∃ history, visibleHistory s.db.commits project (project.commits.length + 1) project.head [] =
        some history ∧ ∀ id, id ∈ (timeline s owner handle).Shown ↔ id ∈ history.map Prod.fst := by
  rw [timeline_found found] at hgrounded ⊢
  cases hhead : project.head with
  | none =>
    refine ⟨[], by rw [visibleHistory], fun id => iff_of_false ?_ List.not_mem_nil⟩
    rintro ⟨h, line, hhead', _⟩
    cases hhead.symm.trans hhead'
  | some h =>
    obtain ⟨line, hline, hlisted⟩ := hgrounded.lines h (hgrounded.head h hhead)
    obtain ⟨tail, htail, hids⟩ := visibleHistory_eq hline
      ((hclosed.found found).2.2.2.stored hlisted) (length_le_rounds hline hlisted) []
    refine ⟨tail, htail, fun id => ?_⟩
    rw [hids]
    exact Timeline.shown_iff hhead hline

end Pages

/-! What a request does to a history. -/

section Requests
variable {Bytes Hash : Type} [DecidableEq Hash] {c : Config Bytes Hash} {s : State Bytes}
  {owner other : Principal} {handle handle' : String} {removed : Set String} {faults : Faults}

omit [DecidableEq Hash] in
theorem timeline_withProject (project : StoredProject) :
    timeline (s.withProject other handle' project) owner handle =
      if owner = other ∧ handle = handle' then project.timeline s.db.commits
      else timeline s owner handle := by
  unfold timeline
  rw [projectFor_withProject]
  split <;> rfl

omit [DecidableEq Hash] in
/-- A change of a project that leaves its line as it is. -/
theorem timeline_same {project : StoredProject}
    (hsame : project.timeline s.db.commits = timeline s other handle') :
    timeline (s.withProject other handle' project) owner handle = timeline s owner handle := by
  rw [timeline_withProject]
  split
  · rename_i heq
    rw [hsame, heq.1, heq.2]
  · rfl

omit [DecidableEq Hash] in
theorem putProjectProfile_timeline (profile : ProjectProfile) :
    timeline (putProjectProfile faults other handle' profile s).1 owner handle =
      timeline s owner handle := by
  unfold putProjectProfile
  rcases mutatePersisted_cases faults s _ .noContent "persist project profile: " with
    ⟨hstate, -⟩ | ⟨hstate, -⟩
  · rw [hstate]
    refine timeline_same (s := s) ?_
    cases found : projectFor s.db other handle' with
    | none =>
      rw [timeline, found]
      rfl
    | some project =>
      rw [timeline_found found]
      rfl
  · rw [hstate]

theorem putBlob_timeline (hash : String) (body : Bytes) :
    timeline (putBlob c.F c.parseHash faults other handle' hash body s).1 owner handle =
      timeline s owner handle := by
  rcases putBlob_cases c faults other s handle' hash body with
    ⟨response, -, heq⟩ | ⟨project, written, found, -, hwritten, heq⟩
  · rw [heq]
  rw [heq]
  have hprojects : written.db.projects = s.db.projects := by
    rcases hwritten with ⟨rfl, -⟩ | rfl
    · rfl
    · exact withBlob_projects _ _ _
  have hcommits : written.db.commits = s.db.commits := by
    rcases hwritten with ⟨rfl, -⟩ | rfl
    · rfl
    · exact withBlob_commits _ _ _
  have hwritten : timeline written owner handle = timeline s owner handle := by
    rw [timeline, timeline, projectFor, hprojects, hcommits]
    rfl
  have hfound : projectFor written.db other handle' = some project := by
    rw [projectFor, hprojects]
    exact found
  rcases mutatePersisted_cases faults written (fun db => db.modify other handle' fun project =>
    { project with blobs := insertKey hash project.blobs }) .ok
    "persist project blob reference: " with ⟨hstate, -⟩ | ⟨hstate, -⟩
  · rw [hstate, modify_found hfound]
    refine Eq.trans (timeline_same ?_) hwritten
    exact (timeline_found hfound).symm
  · rw [hstate, hwritten]

omit [DecidableEq Hash] in
theorem postHead_timeline (identity : TokenIdentity) (authenticated : AuthenticatedIdentity)
    {request : Request Bytes Hash} {fromHead : Option String} {toHead : String}
    (hauth : @requireAuth Bytes c.auth request.token = .ok (identity, authenticated))
    (hcall : request.call = .postHead handle' fromHead toHead) :
    timeline (postHead request.faults identity.principal handle' fromHead toHead s).1 owner handle =
        timeline s owner handle ∨
      (Advances c s request owner handle toHead ∧
        timeline (postHead request.faults identity.principal handle' fromHead toHead s).1 owner
          handle = (timeline s owner handle).moved toHead) := by
  rcases postHead_cases request.faults identity.principal s handle' fromHead toHead with
    ⟨response, heq⟩ | ⟨project, updatedAt, found, hhead, hcommitted, heq⟩
  · rw [heq]
    exact Or.inl rfl
  rw [heq]
  rcases mutatePersisted_cases request.faults s (fun db => db.modify identity.principal handle'
    fun project => { project with head := some toHead, updatedAt := updatedAt }) .advanced
    "persist project head: " with ⟨hstate, hpersist⟩ | ⟨hstate, -⟩
  · rw [hstate, modify_found found, timeline_withProject]
    by_cases hsame : owner = identity.principal ∧ handle = handle'
    · obtain ⟨rfl, rfl⟩ := hsame
      rw [if_pos ⟨rfl, rfl⟩, timeline_found found]
      exact Or.inr ⟨⟨identity, authenticated, fromHead, project, hauth, rfl, hcall, found, hhead,
        hcommitted, hpersist⟩, rfl⟩
    · rw [if_neg hsame]
      exact Or.inl rfl
  · rw [hstate]
    exact Or.inl rfl

omit [DecidableEq Hash] in
theorem postRetention_timeline (rule : RetentionRule) (hclosed : Closed c s)
    (hgrounded : (timeline s owner handle).Grounded) :
    timeline (postRetention faults other handle' rule s).1 owner handle =
        timeline s owner handle ∨
      ∃ newFloor ∈ (timeline s owner handle).Shown,
        timeline (postRetention faults other handle' rule s).1 owner handle =
          (timeline s owner handle).bounded newFloor := by
  rcases postRetention_cases faults other s handle' rule with
    ⟨response, heq⟩ | ⟨project, history, newFloor, report, found, hhistory, hmem, heq⟩
  · rw [heq]
    exact Or.inl rfl
  rw [heq]
  rcases mutatePersisted_cases faults s (fun db => db.modify other handle' fun project =>
    { project with historyFloor := some newFloor }) (.retention report)
    "persist retention boundary: " with ⟨hstate, -⟩ | ⟨hstate, -⟩
  · rw [hstate, modify_found found, timeline_withProject]
    by_cases hsame : owner = other ∧ handle = handle'
    · obtain ⟨rfl, rfl⟩ := hsame
      rw [if_pos ⟨rfl, rfl⟩]
      obtain ⟨history', hhistory', hids⟩ := visibleHistory_ids hclosed found hgrounded
      rw [hhistory] at hhistory'
      cases hhistory'
      rw [timeline_found found] at hids ⊢
      exact Or.inr ⟨newFloor, (hids newFloor).mpr hmem, rfl⟩
    · rw [if_neg hsame]
      exact Or.inl rfl
  · rw [hstate]
    exact Or.inl rfl

omit [DecidableEq Hash] in
/-- A project that is not there lists nothing. -/
theorem Closed.getD (hclosed : Closed c s) (owner : Principal) (handle : String) :
    ProjectClosed c owner s ((projectFor s.db owner handle).getD {}) := by
  cases found : projectFor s.db owner handle with
  | none => exact ⟨nofun, nofun, nofun⟩
  | some project => exact (hclosed.found found).2.2.2

section Lawful
variable (hC : CanonicalJson c.F c.jcs fun text => (c.parseHash text).toOption)

include hC

omit [DecidableEq Hash] in
/-- A commit posted again under an id has the same parents. -/
theorem firstParent_withCommit {project : StoredProject} {id : String} {commit : Commit Hash}
    (h : Recorded c owner s project id) (typed : commit.Typed)
    (hid : FilesystemProvider.computeCommitId (formats c.F c.jcs c.parseHash) commit =
      .ok commit.id) :
    (get? (s.withCommit (c.F.hashText commit.id) (canonicalValue c.F commit)).db.commits id).bind
        firstParent = (get? s.db.commits id).bind firstParent := by
  obtain ⟨old, haccepted, htext, hget⟩ := h
  rw [State.withCommit, get?_insert]
  split
  · rename_i heq
    have hsame : old.id = commit.id := hashText_inj hC (htext.trans heq)
    have hold := haccepted.id
    rw [hsame] at hold
    have hparents : old.parents = commit.parents :=
      (congrArg Commit.parents (hC.eq_of_computeCommitId_eq haccepted.typed typed hold hid) :)
    rw [hget, Option.bind_some, Option.bind_some, firstParent_canonicalValue,
      firstParent_canonicalValue, hparents]
  · rfl

omit [DecidableEq Hash] in
theorem withCommit_grows {project : StoredProject} {commit : Commit Hash}
    (hproject : ProjectClosed c owner s project) (typed : commit.Typed)
    (hid : FilesystemProvider.computeCommitId (formats c.F c.jcs c.parseHash) commit =
      .ok commit.id) :
    (project.timeline s.db.commits).Grows (project.timeline
      (s.withCommit (c.F.hashText commit.id) (canonicalValue c.F commit)).db.commits) := by
  refine ⟨Set.Subset.rfl, ?_, fun k hk hnew => absurd hk hnew, rfl, rfl⟩
  intro k (hk : k ∈ project.commits)
  change project.parent _ k = project.parent _ k
  rw [StoredProject.parent, StoredProject.parent, if_pos hk, if_pos hk]
  exact firstParent_withCommit hC (hproject.commits k hk) typed hid

omit [DecidableEq Hash] in
theorem Accepted.grows {project : StoredProject} {commit : Commit Hash}
    (hproject : ProjectClosed c owner s project) (accepted : Accepted c owner s project commit) :
    (project.timeline s.db.commits).Grows
      ({ project with commits := insertKey (c.F.hashText commit.id) project.commits }.timeline
        (s.withCommit (c.F.hashText commit.id) (canonicalValue c.F commit)).db.commits) := by
  refine ⟨fun k hk => mem_insertKey.mpr (Or.inr hk), ?_, ?_, rfl, rfl⟩
  · intro k (hk : k ∈ project.commits)
    change StoredProject.parent _ _ k = project.parent _ k
    rw [StoredProject.parent, StoredProject.parent, if_pos hk, if_pos (mem_insertKey.mpr (Or.inr hk))]
    exact firstParent_withCommit hC (hproject.commits k hk) accepted.typed accepted.id
  · intro k (hk : k ∈ insertKey (c.F.hashText commit.id) project.commits) hnew p hp
    obtain rfl : k = c.F.hashText commit.id := (mem_insertKey.mp hk).resolve_right hnew
    change StoredProject.parent _ _ _ = some p at hp
    rw [StoredProject.parent, if_pos hk, State.withCommit, get?_insert, if_pos rfl,
      Option.bind_some, firstParent_canonicalValue] at hp
    obtain ⟨parent, hparent, rfl⟩ := Option.map_eq_some_iff.mp hp
    exact accepted.parents parent (List.mem_of_head? hparent)

theorem postCommit_timeline (hclosed : Closed c s) {authenticated : AuthenticatedIdentity}
    (huser : authenticated.userId = other.subject) (commit : WireCommit Hash) :
    (timeline s owner handle).Grows (timeline
      (postCommit c.F c.jcs c.parseHash faults other authenticated handle' commit.1 s).1 owner
        handle) := by
  rcases postCommit_cases (c := c) faults s huser handle' commit with
    ⟨response, -, heq⟩ | ⟨project, found, accepted, heq⟩
  · rw [heq]
    exact .refl _
  rw [heq]
  rcases mutatePersisted_cases faults s _ (.posted (c.F.hashText commit.1.id)) "persist commit: "
    with ⟨hstate, -⟩ | ⟨hstate, -⟩
  · rw [hstate]
    have hmodified := modify_found (s := s.withCommit (c.F.hashText commit.1.id)
      (canonicalValue c.F commit.1)) found fun project =>
        { project with commits := insertKey (c.F.hashText commit.1.id) project.commits }
    refine Eq.subst (motive := fun t => (timeline s owner handle).Grows (timeline t owner handle))
      hmodified.symm ?_
    rw [timeline_withProject]
    by_cases hsame : owner = other ∧ handle = handle'
    · obtain ⟨rfl, rfl⟩ := hsame
      rw [if_pos ⟨rfl, rfl⟩, timeline_found found]
      exact accepted.grows hC (hclosed.found found).2.2.2
    · rw [if_neg hsame]
      exact withCommit_grows hC (hclosed.getD owner handle) accepted.typed accepted.id
  · rw [hstate]
    exact .refl _

/-- A request adds a commit to the history of a project, moves its head or moves its boundary. -/
theorem handle_timeline (hclosed : Closed c s) (hgrounded : (timeline s owner handle).Grounded)
    (request : Request Bytes Hash) :
    (timeline s owner handle).Grows (timeline (Server.handle c s request).1 owner handle) ∨
      (¬request.isRetention ∧ ∃ toHead, Advances c s request owner handle toHead ∧
        timeline (Server.handle c s request).1 owner handle =
          (timeline s owner handle).moved toHead) ∨
      (request.isRetention ∧ ∃ newFloor ∈ (timeline s owner handle).Shown,
        timeline (Server.handle c s request).1 owner handle =
          (timeline s owner handle).bounded newFloor) := by
  have hsame : ∀ {t : State Bytes}, timeline t owner handle = timeline s owner handle →
      (timeline s owner handle).Grows (timeline t owner handle) := fun h => h ▸ .refl _
  rcases handle_eq (c := c) s request with hstate | ⟨identity, authenticated, hauth, hanswer⟩
  · exact Or.inl (hsame (by rw [hstate]))
  rw [hanswer]
  cases hcall : request.call with
  | putProjectProfile handle' profile => exact Or.inl (hsame (putProjectProfile_timeline profile))
  | putBlob handle' hash body => exact Or.inl (hsame (putBlob_timeline hash body))
  | postCommit handle' commit =>
    exact Or.inl (postCommit_timeline hC hclosed (requireAuth_ok hauth).2 commit)
  | postHead handle' fromHead toHead =>
    rcases postHead_timeline identity authenticated hauth hcall with heq | ⟨hadvances, heq⟩
    · exact Or.inl (hsame heq)
    · refine Or.inr (Or.inl ⟨?_, toHead, hadvances, heq⟩)
      intro ⟨_, _, hretention⟩
      rw [hcall] at hretention
      cases hretention
  | postRetention handle' rule =>
    rcases postRetention_timeline rule hclosed hgrounded with heq | ⟨newFloor, hshown, heq⟩
    · exact Or.inl (hsame heq)
    · exact Or.inr (Or.inr ⟨⟨handle', rule, hcall⟩, newFloor, hshown, heq⟩)
  | _ => exact Or.inl (.refl _)

omit hC in
theorem Advances.timeline {request : Request Bytes Hash} {toHead : String}
    (h : Advances c s request owner handle toHead) :
    toHead ∈ (timeline s owner handle).listed ∧
      timeline (Server.handle c s request).1 owner handle =
        (timeline s owner handle).moved toHead := by
  obtain ⟨identity, authenticated, fromHead, project, hauth, rfl, hcall, found, hhead, hcommitted,
    hpersist⟩ := h
  rw [timeline_found found]
  refine ⟨hcommitted, ?_⟩
  have hstate : (Server.handle c s request).1 = s.withProject identity.principal handle
      { project with
        head := some toHead
        updatedAt := ((get? s.db.commits toHead).map timestampOf).getD 0 } := by
    simp only [Server.handle, hcall, hauth, answer, postHead, found, hhead, ne_eq,
      not_true_eq_false, if_false, hcommitted]
    rw [mutatePersisted_done _ _ _ _ _ hpersist, modify_found found]
  rw [hstate, timeline_withProject, if_pos ⟨rfl, rfl⟩]
  rfl

end Lawful

/-- What one request takes out. -/
def Request.takesOut (c : Config Bytes Hash) (s : State Bytes) (request : Request Bytes Hash)
    (owner : Principal) (handle : String) : Set String :=
  {id | request.isRetention ∧ InHistory s owner handle id ∧
    ¬InHistory (Server.handle c s request).1 owner handle id}

theorem run_append (s : State Bytes) (requests : List (Request Bytes Hash))
    (request : Request Bytes Hash) :
    run c s (requests ++ [request]) = (Server.handle c (run c s requests) request).1 := by
  rw [run, List.foldl_append]
  rfl

theorem takenOut_append (s : State Bytes) (requests : List (Request Bytes Hash))
    (request : Request Bytes Hash) :
    TakenOut c s (requests ++ [request]) owner handle =
      TakenOut c s requests owner handle ∪ request.takesOut c (run c s requests) owner handle := by
  ext id
  constructor
  · rintro ⟨before, last, after, hsplit, hretention, hin, hout⟩
    rcases List.eq_nil_or_concat after with rfl | ⟨after', x, rfl⟩
    · obtain ⟨rfl, hlast⟩ := List.append_inj' hsplit rfl
      cases hlast
      rw [run_append] at hout
      exact Or.inr ⟨hretention, hin, hout⟩
    · rw [List.concat_eq_append, ← List.cons_append, ← List.append_assoc] at hsplit
      obtain ⟨rfl, -⟩ := List.append_inj' hsplit rfl
      exact Or.inl ⟨before, last, after', rfl, hretention, hin, hout⟩
  · rintro (⟨before, last, after, rfl, hretention, hin, hout⟩ | ⟨hretention, hin, hout⟩)
    · exact ⟨before, last, after ++ [request], by simp, hretention, hin, hout⟩
    · rw [← run_append] at hout
      exact ⟨requests, request, [], rfl, hretention, hin, hout⟩

section Runs
variable (hC : CanonicalJson c.F c.jcs fun text => (c.parseHash text).toOption)

include hC

theorem grounded_run (dataDir : Bool) (requests : List (Request Bytes Hash)) (owner : Principal)
    (handle : String) :
    (timeline (run c (State.empty dataDir) requests) owner handle).Grounded := by
  induction requests using List.reverseRecOn with
  | nil => exact ⟨nofun, nofun⟩
  | append_singleton requests request ih =>
    rw [run_append]
    rcases handle_timeline hC ((closed_empty c dataDir).run hC requests) ih request with
      hgrows | ⟨-, toHead, hadvances, heq⟩ | ⟨-, newFloor, -, heq⟩
    · exact ih.grow hgrows
    · rw [heq]
      exact ih.move hadvances.timeline.1
    · rw [heq]
      exact ih.bound newFloor

/-- In a reachable state the pages list the line from the head down to the boundary. -/
theorem inHistory_run (dataDir : Bool) (requests : List (Request Bytes Hash)) {id : String} :
    InHistory (run c (State.empty dataDir) requests) owner handle id ↔
      id ∈ (timeline (run c (State.empty dataDir) requests) owner handle).Shown :=
  inHistory_iff ((closed_empty c dataDir).run hC requests) (grounded_run hC dataDir requests _ _)

/-- What the walk of `post_retention` meets can be computed. -/
theorem inHistory_walk (dataDir : Bool) (requests : List (Request Bytes Hash)) (ids : List String)
    (hwalk : ((projectFor (run c (State.empty dataDir) requests).db owner handle).bind
      fun project => (visibleHistory (run c (State.empty dataDir) requests).db.commits project
        (project.commits.length + 1) project.head []).map fun history => history.map Prod.fst) =
          some ids) (id : String) :
    InHistory (run c (State.empty dataDir) requests) owner handle id ↔ id ∈ ids := by
  obtain ⟨project, found, hwalk⟩ := Option.bind_eq_some_iff.mp hwalk
  obtain ⟨history, hhistory, hids⟩ := visibleHistory_ids ((closed_empty c dataDir).run hC requests)
    found (grounded_run hC dataDir requests owner handle)
  rw [hhistory] at hwalk
  cases hwalk
  rw [inHistory_run hC, hids]

theorem guarded_handle (hclosed : Closed c s) (hguard : (timeline s owner handle).Guarded removed)
    {request : Request Bytes Hash} (hanchored : HeadAnchored c s request owner handle removed) :
    (timeline (Server.handle c s request).1 owner handle).Guarded
      (removed ∪ request.takesOut c s owner handle) := by
  have hclosed' := hclosed.handle hC request
  rcases handle_timeline hC hclosed hguard.toGrounded request with
    hgrows | ⟨hother, toHead, hadvances, heq⟩ | ⟨hretention, newFloor, hshown, heq⟩
  · have hguard' := hguard.grow hgrows
    have hnone : request.takesOut c s owner handle = ∅ := by
      rw [Set.eq_empty_iff_forall_notMem]
      intro id ⟨_, hin, hout⟩
      rw [inHistory_iff hclosed hguard.toGrounded] at hin
      rw [inHistory_iff hclosed' hguard'.toGrounded, hgrows.shown hguard.toGrounded] at hout
      exact hout hin
    rwa [hnone, Set.union_empty]
  · have hnone : request.takesOut c s owner handle = ∅ := by
      rw [Set.eq_empty_iff_forall_notMem]
      exact fun id h => hother h.1
    rw [hnone, Set.union_empty, heq]
    exact hguard.move hadvances.timeline.1 (hanchored toHead hadvances)
  · have hguard' := hguard.retain hshown
    rw [← heq] at hguard'
    have hall : request.takesOut c s owner handle = (timeline s owner handle).Shown \
        (timeline (Server.handle c s request).1 owner handle).Shown := by
      ext id
      rw [Set.mem_sdiff, ← inHistory_iff hclosed hguard.toGrounded, ← inHistory_iff hclosed' hguard'.toGrounded]
      exact ⟨fun h => h.2, fun h => ⟨hretention, h⟩⟩
    rwa [hall]

theorem guarded_run (dataDir : Bool) {requests : List (Request Bytes Hash)}
    (hanchored : ∀ first request rest, requests = first ++ request :: rest →
      HeadAnchored c (run c (State.empty dataDir) first) request owner handle
        (TakenOut c (State.empty dataDir) first owner handle)) :
    (timeline (run c (State.empty dataDir) requests) owner handle).Guarded
      (TakenOut c (State.empty dataDir) requests owner handle) := by
  induction requests using List.reverseRecOn with
  | nil =>
    have hnone : TakenOut c (State.empty dataDir) [] owner handle = ∅ := by
      rw [Set.eq_empty_iff_forall_notMem]
      intro id ⟨first, request, rest, hsplit, _⟩
      exact absurd hsplit (by simp)
    rw [hnone]
    exact ⟨⟨nofun, nofun⟩, Set.empty_subset _, nofun, nofun, nofun, nofun⟩
  | append_singleton requests request ih =>
    rw [run_append, takenOut_append]
    apply guarded_handle hC ((closed_empty c dataDir).run hC requests)
    · apply ih
      rintro first last rest rfl
      exact hanchored first last (rest ++ [request]) (by simp)
    · exact hanchored requests request [] rfl

/-- In every state of a run, what retention took out is not in the history of the project, exactly
when every new head of the project has the boundary on its line, or nothing that was taken out. -/
theorem retention_permanent_iff (dataDir : Bool) (owner : Principal) (handle : String)
    (requests : List (Request Bytes Hash)) :
    (∀ first rest, requests = first ++ rest →
      StaysOut c (State.empty dataDir) first owner handle) ↔
      ∀ first request rest, requests = first ++ request :: rest →
        HeadAnchored c (run c (State.empty dataDir) first) request owner handle
          (TakenOut c (State.empty dataDir) first owner handle) := by
  constructor
  · intro hout
    induction requests using List.reverseRecOn with
    | nil =>
      intro first request rest hsplit
      exact absurd hsplit (by simp)
    | append_singleton requests request ih =>
      have hold := ih fun first rest hsplit =>
        hout first (rest ++ [request]) (by rw [hsplit, List.append_assoc])
      intro first last rest hsplit
      rcases List.eq_nil_or_concat rest with rfl | ⟨rest', x, rfl⟩
      · obtain ⟨rfl, hlast⟩ := List.append_inj' hsplit rfl
        cases hlast
        intro toHead hadvances
        by_contra hanchored
        obtain ⟨hlisted, heq⟩ := hadvances.timeline
        obtain ⟨id, hid, hshown⟩ := (guarded_run hC dataDir hold).move_shows hlisted hanchored
        rw [← heq, ← run_append, ← inHistory_run hC] at hshown
        refine hout _ [] (by simp) id ?_ hshown
        rw [takenOut_append]
        exact Or.inl hid
      · rw [List.concat_eq_append, ← List.cons_append, ← List.append_assoc] at hsplit
        obtain ⟨rfl, -⟩ := List.append_inj' hsplit rfl
        exact hold first last rest' rfl
  · rintro hanchored first rest rfl id hid
    have hguard : (timeline (run c (State.empty dataDir) first) owner handle).Guarded
        (TakenOut c (State.empty dataDir) first owner handle) := by
      apply guarded_run hC
      rintro before request after rfl
      exact hanchored before request (after ++ rest) (by simp)
    rw [inHistory_run hC]
    exact hguard.hidden id hid

end Runs

end Requests

/-! A version that comes back. -/

def soloText : String :=
  "\x7b\"author\":\x7b\"display_name\":\"Test User\",\"provider_id\":\"local-folder\"," ++
    "\"provider_user_id\":\"user-1\"\x7d,\"auru_version\":\"0.1.0\",\"description\":\"\"," ++
    "\"format_version\":8,\"message\":\"solo\",\"parents\":[],\"timestamp\":1," ++
    "\"tree\":\x7b\"samples\":\"raw:samples\",\"snapshot\":\"raw:snapshot\"\x7d\x7d"

def duetText : String :=
  "\x7b\"author\":\x7b\"display_name\":\"Test User\",\"provider_id\":\"local-folder\"," ++
    "\"provider_user_id\":\"user-1\"\x7d,\"auru_version\":\"0.1.0\",\"description\":\"\"," ++
    "\"format_version\":8,\"message\":\"duet\",\"parents\":[\"blake3:solo\"],\"timestamp\":2," ++
    "\"tree\":\x7b\"samples\":\"raw:samples\",\"snapshot\":\"raw:snapshot\"\x7d\x7d"

/-- The hashes of two texts have names. -/
def nameOf (text : String) : String :=
  if text = soloText then "blake3:solo"
  else if text = duetText then "blake3:duet"
  else "raw:" ++ text

def solo : Commit String where
  id := "blake3:solo"
  parents := []
  tree := ⟨"raw:snapshot", "raw:samples"⟩
  author := ⟨"Test User", "user-1", "local-folder", none⟩
  timestamp := 1
  message := "solo"
  description := ""
  auruVersion := "0.1.0"
  formatVersion := 8
  metadata := none

def duet : Commit String :=
  { solo with id := "blake3:duet", parents := ["blake3:solo"], timestamp := 2, message := "duet" }

def pieceValue (piece : Commit String) : Value := (canonicalValue unhashed piece).rounded

def pieceJcs (v : Value) : Except String String :=
  if v.rounded = pieceValue solo then .ok soloText
  else if v.rounded = pieceValue duet then .ok duetText
  else .error "unsupported"

def pieceFormats : Formats String String :=
  { unhashed with
    contentHash := nameOf
    decodeManifest := fun _ => .ok ⟨[]⟩
    decodeValue := fun text =>
      if text = soloText then .ok (pieceValue solo)
      else if text = duetText then .ok (pieceValue duet)
      else .error "expected value" }

def pieceConfig : Config String String := ⟨takeConfig.auth, .null, pieceFormats, pieceJcs, .ok⟩

theorem duetText_ne : duetText ≠ soloText := by decide +kernel

theorem nameOf_solo : nameOf soloText = "blake3:solo" := if_pos rfl

theorem nameOf_duet : nameOf duetText = "blake3:duet" := by
  rw [nameOf, if_neg duetText_ne, if_pos rfl]

theorem nameOf_cases (text : String) :
    text = soloText ∨ text = duetText ∨ nameOf text = "raw:" ++ text := by
  unfold nameOf
  split
  · exact Or.inl ‹_›
  · split
    · exact Or.inr (Or.inl ‹_›)
    · exact Or.inr (Or.inr rfl)

theorem nameOf_injective : Function.Injective nameOf := by
  have hraw : ∀ text : String, "raw:" ++ text ≠ "blake3:solo" ∧ "raw:" ++ text ≠ "blake3:duet" := by
    intro text
    constructor <;> intro h <;> simpa using congrArg String.toList h
  intro text text' h
  rcases nameOf_cases text with rfl | rfl | hname <;>
    rcases nameOf_cases text' with rfl | rfl | hname'
  · rfl
  · rw [nameOf_solo, nameOf_duet] at h
    exact absurd h (by decide)
  · rw [nameOf_solo, hname'] at h
    exact absurd h.symm (hraw text').1
  · rw [nameOf_solo, nameOf_duet] at h
    exact absurd h (by decide)
  · rfl
  · rw [nameOf_duet, hname'] at h
    exact absurd h.symm (hraw text').2
  · rw [nameOf_solo, hname] at h
    exact absurd h (hraw text).1
  · rw [nameOf_duet, hname] at h
    exact absurd h (hraw text).2
  · rw [hname, hname'] at h
    have hlist := congrArg String.toList h
    rw [String.toList_append, String.toList_append] at hlist
    exact String.toList_injective (List.append_cancel_left hlist)

theorem pieceConfig_canonical : CanonicalJson pieceConfig.F pieceConfig.jcs
    fun text => (pieceConfig.parseHash text).toOption where
  hash_injective := nameOf_injective
  parse_hash _ := rfl
  written commit text h := by
    change pieceJcs (canonicalValue unhashed commit) = .ok text at h
    change (if text = soloText then Except.ok (pieceValue solo)
      else if text = duetText then .ok (pieceValue duet)
      else .error "expected value") = .ok (canonicalValue unhashed commit).rounded
    rw [pieceJcs] at h
    by_cases hsolo : (canonicalValue unhashed commit).rounded = pieceValue solo
    · rw [if_pos hsolo, Except.ok.injEq] at h
      rw [← h, if_pos rfl, hsolo]
    · rw [if_neg hsolo] at h
      by_cases hduet : (canonicalValue unhashed commit).rounded = pieceValue duet
      · rw [if_pos hduet, Except.ok.injEq] at h
        rw [← h, if_neg duetText_ne, if_pos rfl, hduet]
      · rw [if_neg hduet] at h
        cases h

theorem typed_solo : solo.Typed := ⟨by decide, by decide⟩

theorem typed_duet : duet.Typed := ⟨by decide, by decide⟩

/-- Two versions, of which only the latest is kept. -/
def keptDuet : List (Request String String) :=
  [asTestUser (.putProjectProfile "song" ⟨"Song", "ableton", ⟨none, []⟩, none⟩),
    asTestUser (.putBlob "song" "raw:snapshot" "snapshot"),
    asTestUser (.putBlob "song" "raw:samples" "samples"),
    asTestUser (.postCommit "song" ⟨solo, typed_solo⟩),
    asTestUser (.postHead "song" none "blake3:solo"),
    asTestUser (.postCommit "song" ⟨duet, typed_duet⟩),
    asTestUser (.postHead "song" (some "blake3:solo") "blake3:duet"),
    asTestUser (.postRetention "song" (.latest 1))]

def backToSolo : Request String String :=
  asTestUser (.postHead "song" (some "blake3:duet") "blake3:solo")

def testUser : Principal := ⟨"https://id.example", "user-1"⟩

/-- A version that retention took out is back after the head went back to it. -/
theorem removed_version_returns :
    CanonicalJson pieceConfig.F pieceConfig.jcs
        (fun text => (pieceConfig.parseHash text).toOption) ∧
      "blake3:solo" ∈ TakenOut pieceConfig (State.empty true) keptDuet testUser "song" ∧
        InHistory (run pieceConfig (State.empty true) (keptDuet ++ [backToSolo])) testUser "song"
          "blake3:solo" := by
  refine ⟨pieceConfig_canonical, ⟨keptDuet.take 7, asTestUser (.postRetention "song" (.latest 1)),
    [], rfl, ⟨"song", .latest 1, rfl⟩, ?_, ?_⟩, ?_⟩
  · rw [inHistory_walk pieceConfig_canonical true (keptDuet.take 7)
      ["blake3:duet", "blake3:solo"] (by decide +kernel)]
    decide
  · rw [inHistory_walk pieceConfig_canonical true (keptDuet.take 7 ++ _)
      ["blake3:duet"] (by decide +kernel)]
    decide
  · rw [inHistory_walk pieceConfig_canonical true (keptDuet ++ [backToSolo])
      ["blake3:solo"] (by decide +kernel)]
    decide

/-- Before the head goes back nothing has returned. -/
theorem kept_duet_stays : keptDuet.length = 8 ∧ ∀ first rest, keptDuet = first ++ rest →
    StaysOut pieceConfig (State.empty true) first testUser "song" := by
  refine ⟨rfl, ?_⟩
  apply (retention_permanent_iff pieceConfig_canonical true testUser "song" keptDuet).mpr
  intro first request rest hsplit toHead hadvances
  obtain ⟨line, hline, -⟩ :=
    (grounded_run pieceConfig_canonical true first testUser "song").lines toHead
      hadvances.timeline.1
  refine ⟨line, hline, Or.inr ?_⟩
  -- only the last request is a retention
  have hlast : ∀ r ∈ keptDuet.dropLast, ¬r.isRetention := by
    simp [keptDuet, Request.isRetention, asTestUser]
  intro id _ ⟨before, r, after, hfirst, hretention, _⟩
  apply hlast r ?_ hretention
  rw [hsplit, hfirst, List.append_assoc, List.cons_append, List.dropLast_append_cons,
    List.dropLast_cons_of_ne_nil (by simp)]
  exact List.mem_append_right _ List.mem_cons_self

end Server

end AuruPm
