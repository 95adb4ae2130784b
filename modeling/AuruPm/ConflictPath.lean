import AuruPm.Merge
import Mathlib.Data.List.Induction
import Mathlib.Data.List.TakeWhile

/-!
# Printed conflict paths and their parser

`conflict_path_segments` reads back the path that the merge prints. The parser skips dots,
takes `[id=…]` up to the first closing bracket, and turns every segment that parses as an
unsigned number into an index. So it returns the steps that were printed only when each of
them is readable.
-/

namespace AuruPm

set_option autoImplicit false

def digitsValue (digits : List Char) : Nat := Nat.ofDigitChars 10 digits 0

/-- `str::parse::<usize>` on a 64-bit target: one optional plus sign, then decimal digits. -/
def parseUsize (text : List Char) : Option Nat :=
  let digits := if text.head? = some '+' then text.tail else text
  if digits ≠ [] ∧ digits.all Char.isDigit = true ∧ digitsValue digits < 2 ^ 64 then
    some (digitsValue digits)
  else none

def invalidPath (path : String) : String := "invalid conflict path '" ++ path ++ "'"

/-- `[id=` and what follows it. -/
def afterIdMarker : List Char → Option (List Char)
  | '[' :: 'i' :: 'd' :: '=' :: rest => some rest
  | _ => none

/-- A key or an index ends before the next dot or bracket. -/
def isSegmentChar (c : Char) : Bool := c ≠ '.' && c ≠ '['

def keyOrIndex (segment : List Char) : ConflictPathSegment :=
  match parseUsize segment with
  | some index => .index index
  | none => .key (String.ofList segment)

/-- The cursor loop, with the characters that are left. Every round reads at least one. -/
def segmentsLoop (path : String) : Nat → List Char → Except String (List ConflictPathSegment)
  | 0, _ => .ok []
  | _ + 1, [] => .ok []
  | fuel + 1, c :: rest =>
    if c = '.' then segmentsLoop path fuel rest
    else
      match afterIdMarker (c :: rest) with
      | some body =>
        match body.dropWhile (· ≠ ']') with
        | [] => .error (invalidPath path)
        | _ :: rest =>
          (segmentsLoop path fuel rest).map
            (.id (String.ofList (body.takeWhile (· ≠ ']'))) :: ·)
      | none =>
        let segment := (c :: rest).takeWhile isSegmentChar
        if segment = [] then .error (invalidPath path)
        else
          (segmentsLoop path fuel ((c :: rest).dropWhile isSegmentChar)).map
            (keyOrIndex segment :: ·)

/-- The loop with as many rounds as there are characters. -/
def segmentsFrom (path : String) (text : List Char) : Except String (List ConflictPathSegment) :=
  segmentsLoop path text.length text

def conflictPathSegments (path : String) : Except String (List ConflictPathSegment) :=
  segmentsFrom path path.toList

/-! The loop's equations, free of the round count. -/

theorem length_dropWhile_le {p : Char → Bool} (cs : List Char) :
    (cs.dropWhile p).length ≤ cs.length :=
  (List.dropWhile_suffix p).length_le

theorem length_dropWhile_lt {p : Char → Bool} {c : Char} {cs : List Char}
    (h : (c :: cs).takeWhile p ≠ []) : ((c :: cs).dropWhile p).length < (c :: cs).length := by
  have hp : p c = true := by
    cases hc : p c with
    | true => rfl
    | false => simp [hc] at h
  have := length_dropWhile_le (p := p) cs
  simp only [List.dropWhile_cons, hp, if_true, List.length_cons]
  omega

theorem afterIdMarker_eq_some {cs body : List Char} :
    afterIdMarker cs = some body ↔ cs = '[' :: 'i' :: 'd' :: '=' :: body := by
  unfold afterIdMarker
  split
  · simp
  · rename_i h
    simp only [reduceCtorEq, false_iff]
    exact h body

theorem length_rest_lt {cs body rest : List Char} {c : Char} (hb : afterIdMarker cs = some body)
    (hr : body.dropWhile (· ≠ ']') = c :: rest) : rest.length < cs.length := by
  have h := length_dropWhile_le (p := (· ≠ ']')) body
  rw [hr] at h
  rw [afterIdMarker_eq_some.mp hb]
  simp only [List.length_cons] at h ⊢
  omega

theorem segmentsLoop_eq (path : String) {fuel : Nat} {cs : List Char} (h : cs.length ≤ fuel) :
    segmentsLoop path fuel cs = segmentsFrom path cs := by
  unfold segmentsFrom
  induction hn : cs.length using Nat.strong_induction_on generalizing cs fuel with
  | _ n ih =>
    subst hn
    cases cs with
    | nil => cases fuel <;> rfl
    | cons c rest =>
      obtain ⟨fuel, rfl⟩ : ∃ k, fuel = k + 1 := ⟨fuel - 1, by simp only [List.length_cons] at h; omega⟩
      have both : ∀ tail : List Char, tail.length < (c :: rest).length →
          segmentsLoop path fuel tail = segmentsLoop path rest.length tail := by
        intro tail ht
        simp only [List.length_cons] at ht h
        exact (ih tail.length (by simpa using ht) (by omega) rfl).trans
          (ih tail.length (by simpa using ht) (by omega) rfl).symm
      simp only [List.length_cons, segmentsLoop]
      split
      · exact both rest (by simp)
      · split
        · rename_i body hb
          split
          · rfl
          · rename_i hr
            rw [both _ (length_rest_lt hb hr)]
        · split
          · rfl
          · rename_i hs
            rw [both _ (length_dropWhile_lt hs)]

theorem segmentsFrom_dot (path : String) (rest : List Char) :
    segmentsFrom path ('.' :: rest) = segmentsFrom path rest := by
  simp [segmentsFrom, segmentsLoop]

theorem segmentsFrom_id (path : String) (body : List Char) :
    segmentsFrom path ('[' :: 'i' :: 'd' :: '=' :: body) =
      match body.dropWhile (· ≠ ']') with
      | [] => .error (invalidPath path)
      | _ :: rest =>
        (segmentsFrom path rest).map (.id (String.ofList (body.takeWhile (· ≠ ']'))) :: ·) := by
  have hb : afterIdMarker ('[' :: 'i' :: 'd' :: '=' :: body) = some body := rfl
  rw [segmentsFrom, List.length_cons, segmentsLoop, if_neg (by decide), hb]
  cases hr : body.dropWhile (· ≠ ']') with
  | nil => simp only [hr]
  | cons c rest =>
    have hlen := length_rest_lt hb hr
    simp only [List.length_cons] at hlen
    simp only [hr, List.length_cons]
    rw [segmentsLoop_eq path (by omega)]

theorem segmentsFrom_segment (path : String) {c : Char} {rest : List Char} (hc : isSegmentChar c = true) :
    segmentsFrom path (c :: rest) =
      (segmentsFrom path (rest.dropWhile isSegmentChar)).map
        (keyOrIndex (c :: rest.takeWhile isSegmentChar) :: ·) := by
  have hdot : c ≠ '.' := by
    rintro rfl
    simp [isSegmentChar] at hc
  have hb : afterIdMarker (c :: rest) = none := by
    rw [Option.eq_none_iff_forall_ne_some]
    intro body hbody
    have := (List.cons.inj (afterIdMarker_eq_some.mp hbody)).1
    simp [this, isSegmentChar] at hc
  rw [segmentsFrom, List.length_cons, segmentsLoop, if_neg hdot, hb]
  simp only [List.takeWhile_cons, List.dropWhile_cons, hc, if_true, reduceCtorEq, if_false]
  rw [segmentsLoop_eq path (length_dropWhile_le rest)]

theorem segmentsFrom_bracket (path : String) {rest : List Char}
    (h : afterIdMarker ('[' :: rest) = none) :
    segmentsFrom path ('[' :: rest) = .error (invalidPath path) := by
  rw [segmentsFrom, List.length_cons, segmentsLoop, if_neg (by decide), h]
  simp [isSegmentChar]

/-! What the parser can return. -/

/-- The parser can return this segment. -/
def ConflictPathSegment.Readable : ConflictPathSegment → Prop
  | .key k => k ≠ "" ∧ k.toList.all isSegmentChar = true ∧ parseUsize k.toList = none
  | .index i => i < 2 ^ 64
  | .id x => ']' ∉ x.toList

instance (s : ConflictPathSegment) : Decidable s.Readable := by
  cases s <;> simp only [ConflictPathSegment.Readable] <;> infer_instance

theorem parseUsize_lt {text : List Char} {i : Nat} (h : parseUsize text = some i) : i < 2 ^ 64 := by
  simp only [parseUsize] at h
  generalize (if text.head? = some '+' then text.tail else text) = digits at h
  split at h
  · rename_i hd
    cases h
    exact hd.2.2
  · cases h

theorem keyOrIndex_readable {segment : List Char} (hne : segment ≠ [])
    (hall : segment.all isSegmentChar = true) : (keyOrIndex segment).Readable := by
  unfold keyOrIndex
  split
  · rename_i i hi
    exact parseUsize_lt hi
  · rename_i hnone
    refine ⟨?_, by simpa using hall, by simpa using hnone⟩
    intro h
    apply hne
    simpa using congrArg String.toList h

theorem not_mem_takeWhile_ne {c : Char} (cs : List Char) : c ∉ cs.takeWhile (· ≠ c) := by
  intro h
  simpa using List.mem_takeWhile_imp h

theorem map_eq_ok {α β : Type} {f : α → β} {x : Except String α} {y : β}
    (h : x.map f = .ok y) : ∃ z, x = .ok z ∧ y = f z := by
  cases x with
  | error e => cases h
  | ok z =>
    cases h
    exact ⟨z, rfl, rfl⟩

theorem segmentsFrom_readable {path : String} {cs : List Char} {segments : List ConflictPathSegment}
    (h : segmentsFrom path cs = .ok segments) : ∀ s ∈ segments, s.Readable := by
  induction hn : cs.length using Nat.strong_induction_on generalizing cs segments with
  | _ n ih =>
    subst hn
    cases cs with
    | nil =>
      cases h
      simp
    | cons c rest =>
      by_cases hdot : c = '.'
      · subst hdot
        rw [segmentsFrom_dot] at h
        exact ih rest.length (by simp) h rfl
      cases hb : afterIdMarker (c :: rest) with
      | some body =>
        rw [afterIdMarker_eq_some.mp hb, segmentsFrom_id] at h
        split at h
        · cases h
        · rename_i hr
          obtain ⟨tail, ht, rfl⟩ := map_eq_ok h
          intro s hs
          rcases List.mem_cons.mp hs with rfl | hs
          · simpa [ConflictPathSegment.Readable] using not_mem_takeWhile_ne body
          · exact ih _ (length_rest_lt hb hr) ht rfl s hs
      | none =>
        by_cases hc : isSegmentChar c = true
        · rw [segmentsFrom_segment path hc] at h
          obtain ⟨tail, ht, rfl⟩ := map_eq_ok h
          intro s hs
          rcases List.mem_cons.mp hs with rfl | hs
          · apply keyOrIndex_readable (by simp)
            rw [List.all_cons, hc, Bool.true_and]
            exact List.all_eq_true.mpr fun x hx => List.mem_takeWhile_imp hx
          · have hlen := length_dropWhile_le (p := isSegmentChar) rest
            exact ih _ (by simp only [List.length_cons]; omega) ht rfl s hs
        · have hbr : c = '[' := by simpa [isSegmentChar, hdot] using hc
          subst hbr
          rw [segmentsFrom_bracket path hb] at h
          cases h

/-! What the merge prints. -/

/-- A printed step, with its separator. -/
def stepText : PathStep → List Char
  | .key k => '.' :: k.toList
  | .index i => '.' :: (toString i).toList
  | .element x _ => '[' :: 'i' :: 'd' :: '=' :: (x.toList ++ [']'])

def pathText (path : List PathStep) : List Char := path.flatMap stepText

theorem renderPath_snoc (path : List PathStep) (s : PathStep) :
    renderPath (path ++ [s]) = renderStep (renderPath path) s := by
  simp [renderPath]

/-- The printed path lacks only the dots of the empty keys it starts with and of its first key. -/
theorem pathText_eq (path : List PathStep) :
    ∃ n, pathText path = List.replicate n '.' ++ (renderPath path).toList := by
  induction path using List.reverseRecOn with
  | nil => exact ⟨0, rfl⟩
  | append_singleton path s ih =>
    obtain ⟨n, hn⟩ := ih
    rw [renderPath_snoc, pathText, List.flatMap_append, ← pathText, hn]
    cases s with
    | key key =>
      simp only [renderStep, childPath, List.flatMap_cons, List.flatMap_nil, List.append_nil, stepText]
      split
      · rename_i hempty
        refine ⟨n + 1, ?_⟩
        simp [hempty, List.replicate_succ']
      · exact ⟨n, by simp⟩
    | index i => exact ⟨n, by simp [renderStep, stepText]⟩
    | element id nth => exact ⟨n, by simp [renderStep, stepText]⟩

theorem segmentsFrom_dots (path : String) (n : Nat) (rest : List Char) :
    segmentsFrom path (List.replicate n '.' ++ rest) = segmentsFrom path rest := by
  induction n with
  | zero => rfl
  | succ n ih => rw [List.replicate_succ, List.cons_append, segmentsFrom_dot, ih]

theorem conflictPathSegments_renderPath (path : List PathStep) :
    conflictPathSegments (renderPath path) = segmentsFrom (renderPath path) (pathText path) := by
  obtain ⟨n, hn⟩ := pathText_eq path
  rw [hn, segmentsFrom_dots]
  rfl

/-- A key or index that was read ends here. -/
def EndsSegment (rest : List Char) : Prop := ∀ c ∈ rest.head?, isSegmentChar c = false

theorem endsSegment_pathText (path : List PathStep) : EndsSegment (pathText path) := by
  cases path with
  | nil => simp [EndsSegment, pathText]
  | cons s path => cases s <;> simp [EndsSegment, pathText, stepText, isSegmentChar]

theorem takeWhile_append_of_all {p : Char → Bool} {cs : List Char} (hall : cs.all p = true)
    (rest : List Char) (hrest : ∀ c ∈ rest.head?, p c = false) :
    (cs ++ rest).takeWhile p = cs ∧ (cs ++ rest).dropWhile p = rest := by
  induction cs with
  | nil =>
    cases rest with
    | nil => simp
    | cons c rest => simp [hrest c rfl]
  | cons c cs ih =>
    simp only [List.all_cons, Bool.and_eq_true] at hall
    simp [hall.1, ih hall.2]

theorem segmentsFrom_keyOrIndex (path : String) {segment rest : List Char} (hne : segment ≠ [])
    (hall : segment.all isSegmentChar = true) (hrest : EndsSegment rest) :
    segmentsFrom path ('.' :: (segment ++ rest)) =
      (segmentsFrom path rest).map (keyOrIndex segment :: ·) := by
  obtain ⟨c, cs, rfl⟩ := List.exists_cons_of_ne_nil hne
  simp only [List.all_cons, Bool.and_eq_true] at hall
  obtain ⟨htake, hdrop⟩ := takeWhile_append_of_all hall.2 rest hrest
  rw [segmentsFrom_dot, List.cons_append, segmentsFrom_segment path hall.1, htake, hdrop]

theorem toList_toString_nat (i : Nat) : (toString i).toList = Nat.toDigits 10 i := by
  simp [toString, Nat.repr]

theorem isSegmentChar_of_isDigit {c : Char} (h : c.isDigit = true) : isSegmentChar c = true := by
  have hne : c ≠ '.' ∧ c ≠ '[' := by
    constructor <;>
    · rintro rfl
      revert h
      decide
  simpa [isSegmentChar] using hne

theorem toString_segment (i : Nat) :
    (toString i).toList ≠ [] ∧ (toString i).toList.all isSegmentChar = true := by
  rw [toList_toString_nat]
  exact ⟨Nat.toDigits_ne_nil, List.all_eq_true.mpr fun c hc =>
    isSegmentChar_of_isDigit (Nat.isDigit_of_mem_toDigits (by omega) (by omega) hc)⟩

theorem digits_toString (i : Nat) :
    (toString i).toList ≠ [] ∧ (toString i).toList.all Char.isDigit = true ∧
      digitsValue (toString i).toList = i := by
  rw [toList_toString_nat]
  exact ⟨Nat.toDigits_ne_nil,
    List.all_eq_true.mpr fun c hc => Nat.isDigit_of_mem_toDigits (by omega) (by omega) hc,
    Nat.ofDigitChars_ten_toDigits⟩

theorem parseUsize_toString (i : Nat) :
    parseUsize (toString i).toList = if i < 2 ^ 64 then some i else none := by
  obtain ⟨_, hall, hvalue⟩ := digits_toString i
  have hplus : (toString i).toList.head? ≠ some '+' := by
    intro h
    have hdigit := List.all_eq_true.mp hall '+' (List.mem_of_mem_head? h)
    revert hdigit
    decide
  simp only [parseUsize, if_neg hplus, hvalue, hall, true_and]
  simp

theorem keyOrIndex_toString (i : Nat) :
    keyOrIndex (toString i).toList = if i < 2 ^ 64 then .index i else .key (toString i) := by
  rw [keyOrIndex, parseUsize_toString]
  by_cases hi : i < 2 ^ 64
  · rw [if_pos hi, if_pos hi]
  · rw [if_neg hi, if_neg hi, String.ofList_toList]

/-- A readable step is read back. -/
theorem segmentsFrom_step (path : String) {s : PathStep} (hs : s.segment.Readable)
    {rest : List Char} (hrest : EndsSegment rest) :
    segmentsFrom path (stepText s ++ rest) = (segmentsFrom path rest).map (s.segment :: ·) := by
  cases s with
  | key k =>
    obtain ⟨hne, hall, hnone⟩ := hs
    have hkey : keyOrIndex k.toList = .key k := by simp [keyOrIndex, hnone]
    rw [stepText, List.cons_append, segmentsFrom_keyOrIndex path (by simpa using hne) hall hrest, hkey]
    rfl
  | index i =>
    have hdigits := toString_segment i
    rw [stepText, List.cons_append, segmentsFrom_keyOrIndex path hdigits.1 hdigits.2 hrest,
      keyOrIndex_toString, if_pos (show i < 2 ^ 64 from hs)]
    rfl
  | element x n =>
    have hall : x.toList.all (· ≠ ']') = true :=
      List.all_eq_true.mpr fun c hc => decide_eq_true fun h => hs (h ▸ hc)
    obtain ⟨htake, hdrop⟩ := takeWhile_append_of_all hall (']' :: rest) (by simp)
    have htext : stepText (.element x n) ++ rest =
        '[' :: 'i' :: 'd' :: '=' :: (x.toList ++ ']' :: rest) := by simp [stepText]
    rw [htext, segmentsFrom_id, hdrop, htake]
    simp [PathStep.segment]

/-- Following the segment never leads where the step leads. -/
def Strays : ConflictPathSegment → PathStep → Prop
  | .key k, .key k' => k ≠ k'
  | .index i, .index j => i ≠ j
  | .id y, .element x n => y ≠ x ∨ n ≠ 0
  | .id _, .index _ | .index _, .element _ _ => False
  | _, _ => True

theorem strays_of_unreadable {path : String} {s : PathStep} (hs : ¬s.segment.Readable)
    {rest : List Char} (hrest : EndsSegment rest) {segments : List ConflictPathSegment}
    (h : segmentsFrom path (stepText s ++ rest) = .ok segments) :
    segments = [] ∨ ∃ t tail, segments = t :: tail ∧ Strays t s := by
  cases s with
  | key k =>
    cases segments with
    | nil => exact Or.inl rfl
    | cons t tail =>
      refine Or.inr ⟨t, tail, rfl, ?_⟩
      have ht := segmentsFrom_readable h t List.mem_cons_self
      cases t with
      | key k' =>
        rintro rfl
        exact hs ht
      | index i => trivial
      | id y => trivial
  | index i =>
    have hdigits := toString_segment i
    rw [stepText, List.cons_append, segmentsFrom_keyOrIndex path hdigits.1 hdigits.2 hrest,
      keyOrIndex_toString, if_neg (show ¬i < 2 ^ 64 from hs)] at h
    obtain ⟨tail, -, rfl⟩ := map_eq_ok h
    exact Or.inr ⟨_, tail, rfl, trivial⟩
  | element x n =>
    have hmem : ']' ∈ x.toList := by
      simpa [PathStep.segment, ConflictPathSegment.Readable] using hs
    have htext : stepText (.element x n) ++ rest =
        '[' :: 'i' :: 'd' :: '=' :: (x.toList ++ ']' :: rest) := by simp [stepText]
    rw [htext, segmentsFrom_id] at h
    split at h
    · cases h
    · obtain ⟨tail, -, rfl⟩ := map_eq_ok h
      refine Or.inr ⟨_, tail, rfl, Or.inl ?_⟩
      -- the parser stops at the first bracket, which is inside the id
      intro hx
      rw [← hx, String.toList_ofList] at hmem
      exact not_mem_takeWhile_ne _ hmem

/-- How many elements with the same id the step passes over. -/
def PathStep.passed : PathStep → Nat
  | .element _ nth => nth
  | _ => 0

/-- The parser reads the step back, and looking the segment up finds what the step names. -/
def PathStep.Addressable (s : PathStep) : Prop := s.segment.Readable ∧ s.passed = 0

instance (s : PathStep) : Decidable s.Addressable := by
  unfold PathStep.Addressable
  infer_instance

theorem segmentsFrom_pathText (path : String) {steps : List PathStep}
    (h : ∀ s ∈ steps, s.Addressable) :
    segmentsFrom path (pathText steps) = .ok (steps.map PathStep.segment) := by
  induction steps with
  | nil => rfl
  | cons s steps ih =>
    rw [pathText, List.flatMap_cons, ← pathText, segmentsFrom_step path (h s List.mem_cons_self).1
      (endsSegment_pathText steps), ih fun t ht => h t (List.mem_cons_of_mem s ht)]
    rfl

/-- The segments follow the steps up to one that they miss. -/
inductive Misread : List ConflictPathSegment → List PathStep → Prop
  | short (s : PathStep) (steps : List PathStep) : Misread [] (s :: steps)
  | stray {t : ConflictPathSegment} {s : PathStep} (h : Strays t s)
      (segments : List ConflictPathSegment) (steps : List PathStep) :
      Misread (t :: segments) (s :: steps)
  | step {s : PathStep} (hs : s.Addressable) {segments : List ConflictPathSegment}
      {steps : List PathStep} (rest : Misread segments steps) :
      Misread (s.segment :: segments) (s :: steps)

theorem misread_of_not_addressable {path : String} {steps : List PathStep}
    (h : ¬∀ s ∈ steps, s.Addressable) {segments : List ConflictPathSegment}
    (hread : segmentsFrom path (pathText steps) = .ok segments) : Misread segments steps := by
  induction steps generalizing segments with
  | nil => simp at h
  | cons s steps ih =>
    rw [pathText, List.flatMap_cons, ← pathText] at hread
    by_cases hr : s.segment.Readable
    · rw [segmentsFrom_step path hr (endsSegment_pathText steps)] at hread
      obtain ⟨tail, htail, rfl⟩ := map_eq_ok hread
      by_cases hs : s.Addressable
      · exact .step hs (ih (fun hall => h (by simpa [hs] using hall)) htail)
      · cases s with
        | element x n =>
          have hn : Strays (.id x) (.element x n) := Or.inr fun hn => hs ⟨hr, hn⟩
          exact .stray hn _ _
        | key k => exact absurd ⟨hr, rfl⟩ hs
        | index i => exact absurd ⟨hr, rfl⟩ hs
    · rcases strays_of_unreadable hr (endsSegment_pathText steps) hread with
        rfl | ⟨t, tail, rfl, ht⟩
      · exact .short s steps
      · exact .stray ht _ _

end AuruPm
