import AuruPm.CommitText
import AuruPm.SdkReadBack

/-!
# One id for one commit

The kernel and the client libraries encode a commit as the same bytes, and the bytes tell every field
but the id.
-/

namespace AuruPm

set_option autoImplicit false

open SortedAssoc CodeUnits

namespace Value

mutual
/-- The document as a value of the client libraries; what no 64 bits hold is a fractional number. -/
def document : Value → JsonValue (List Char) Rat
  | .null => .null
  | .bool flag => .bool flag
  | .number (.posInt n) =>
    if n.toNat < 2 ^ 63 then .int (.ofNat n.toNat) else .dec n.toNat
  | .number (.negInt n) => .int n
  | .number (.float q) => .dec q
  | .string s => .str s.toList
  | .array elems => .arr (documentElems elems)
  | .object fields => .obj (documentFields fields)
def documentElems : List Value → List (JsonValue (List Char) Rat)
  | [] => []
  | v :: vs => v.document :: documentElems vs
def documentFields : List (String × Value) → List (List Char × JsonValue (List Char) Rat)
  | [] => []
  | (k, v) :: fs => (k.toList, v.document) :: documentFields fs
end

theorem documentElems_eq (elems : List Value) : documentElems elems = elems.map document := by
  induction elems with
  | nil => rfl
  | cons v vs ih => rw [documentElems, ih, List.map_cons]

theorem documentFields_eq (fields : List (String × Value)) :
    documentFields fields = fields.map fun f => (f.1.toList, f.2.document) := by
  induction fields with
  | nil => rfl
  | cons f fs ih => rw [documentFields, ih, List.map_cons]

end Value

namespace Sdk

open JsonValue

variable {T D : Type}

/-- The kernel prints a hash as the libraries do. -/
def displayed {Bytes : Type} (F : Formats Bytes ContentHash) : Formats Bytes ContentHash :=
  { F with hashText := fun hash => String.ofList hash.toText }

/-- A commit of the kernel in the strings of a library. -/
def content (encode : List Char → T) (commit : AuruPm.Commit ContentHash) : Content T where
  parents := commit.parents
  tree := commit.tree
  author :=
    { displayName := encode commit.author.displayName.toList
      providerUserId := encode commit.author.providerUserId.toList
      providerId := encode commit.author.providerId.toList
      email := commit.author.email.map fun email => encode email.toList }
  timestamp := .ofInt commit.timestamp
  message := encode commit.message.toList
  description := encode commit.description.toList
  auruVersion := encode commit.auruVersion.toList
  formatVersion := .ofInt commit.formatVersion
  metadata := commit.metadata

/-- The author of a commit of the kernel, over plain texts. -/
def plainAuthor (author : AuruPm.AuthorIdentity) : AuthorIdentity (List Char) where
  displayName := author.displayName.toList
  providerUserId := author.providerUserId.toList
  providerId := author.providerId.toList
  email := author.email.map String.toList

/-- The content of a commit as a value over plain texts. -/
def plainJson (commit : AuruPm.Commit ContentHash) : JsonValue (List Char) D :=
  contentJson Swift.strings (content id commit)

/-- Every library writes the same value, in its own strings. -/
theorem contentJson_map {D₁ : Type} {S : Strings T} (g : D → D₁)
    (commit : AuruPm.Commit ContentHash) :
    contentJson S (content S.ofText commit) =
      (plainJson commit : JsonValue (List Char) D).map S.ofText g := by
  obtain ⟨_, parents, tree, ⟨_, _, _, email⟩, _, _, _, _, _, metadata⟩ := commit
  cases email <;> cases metadata <;>
    simp [plainJson, contentJson, contentMembers, content, AuthorIdentity.toJson, treeJson, hashJson,
      optionalMember, Strings.literal, Swift.strings, map, mapMembers, mapElements_eq]

/-! The order of members does not matter. -/

theorem canonicalOrder_perm {A : Type} {ms ms' : List (List Char × A)} (h : ms.Perm ms')
    (hnames : (ms.map Prod.fst).Nodup) : canonicalOrder ms = canonicalOrder ms' := by
  have hperm := perm_canonicalOrder ms
  have hperm' : (canonicalOrder ms').Perm ms := (perm_canonicalOrder ms').trans h.symm
  refine List.Perm.eq_of_pairwise ?_ (pairwise_canonicalOrder ms) (pairwise_canonicalOrder ms')
    (hperm.trans hperm'.symm)
  intro left right hleft hright h₁ h₂
  exact List.inj_on_of_nodup_map hnames (hperm.mem_iff.mp hleft) (hperm'.mem_iff.mp hright)
    (utf16_injective (le_antisymm h₁ h₂))

theorem rebuild_obj (ms : List (List Char × JsonValue (List Char) D)) :
    (obj ms).rebuild canonicalOrder =
      .obj (canonicalOrder (ms.map fun m => (m.1, m.2.rebuild canonicalOrder))) := by
  rw [rebuild, rebuildMembers_eq]

theorem rebuild_obj_perm {ms ms' : List (List Char × JsonValue (List Char) D)} (h : ms.Perm ms')
    (hnames : (ms.map Prod.fst).Nodup) :
    (obj ms).rebuild canonicalOrder = (obj ms').rebuild canonicalOrder := by
  rw [rebuild_obj, rebuild_obj, canonicalOrder_perm (h.map _)]
  rwa [List.map_map]

/-! The document of the kernel. -/

def documentMember (f : String × Value) : List Char × JsonValue (List Char) Rat :=
  (f.1.toList, f.2.document)

theorem nodup_documentMember {fields : List (String × Value)} (h : (fields.map Prod.fst).Nodup) :
    ((fields.map documentMember).map Prod.fst).Nodup := by
  rw [List.map_map, show Prod.fst ∘ documentMember = String.toList ∘ Prod.fst from rfl,
    ← List.map_map]
  exact h.map fun _ _ => String.toList_injective

/-- A map of the fields of a struct holds them in some order. -/
theorem rebuild_object {fields fields' : List (String × Value)} (h : fields'.Perm fields)
    (hnames : (fields.map Prod.fst).Nodup) :
    (Value.object fields').document.rebuild canonicalOrder =
      (obj (fields.map documentMember)).rebuild canonicalOrder := by
  rw [Value.document, Value.documentFields_eq]
  exact (rebuild_obj_perm (h.symm.map documentMember) (nodup_documentMember hnames)).symm

theorem rebuild_structValue {fields : List (String × Value)} (hnames : (fields.map Prod.fst).Nodup) :
    (structValue fields).document.rebuild canonicalOrder =
      (obj (fields.map documentMember)).rebuild canonicalOrder := by
  refine rebuild_object ?_ hnames
  simpa using perm_foldl_insert fields [] (by simpa using hnames)

theorem rebuild_remove {name : String} (v : Value) {fields : List (String × Value)}
    (hnames : (name :: fields.map Prod.fst).Nodup) :
    ((structValue ((name, v) :: fields)).remove name).document.rebuild canonicalOrder =
      (obj (fields.map documentMember)).rebuild canonicalOrder := by
  have hperm := perm_foldl_insert ((name, v) :: fields) [] (by simpa using hnames)
  have hrest : (((name, v) :: fields ++ []).filter fun e => e.1 ≠ name) = fields := by
    rw [List.append_nil, List.filter_cons_of_neg (by simp), List.filter_eq_self]
    intro f hf
    have hne : f.1 ≠ name := fun heq =>
      (List.nodup_cons.mp hnames).1 (heq ▸ List.mem_map_of_mem hf)
    simpa using hne
  have hfields := hperm.filter fun e => e.1 ≠ name
  rw [hrest] at hfields
  exact rebuild_object hfields (List.nodup_cons.mp hnames).2

theorem document_ofInt {i : Int} (hlow : -2 ^ 63 ≤ i) (hhigh : i < 2 ^ 63) :
    (Value.number (.ofInt i)).document = .int (.ofInt i) := by
  cases i with
  | ofNat n =>
    have hn : n < 2 ^ 63 := Int.ofNat_lt.mp hhigh
    have hword : (UInt64.ofNat n).toNat = n := toNat_ofNat_of_lt (by omega)
    rw [Number.ofInt, Value.document, hword, if_pos hn]
    rfl
  | negSucc n => rfl

section Kernel
variable {Bytes : Type} {F : Formats Bytes ContentHash}

theorem document_hashValue (hash : ContentHash) :
    (hashValue (displayed F) hash).document = hashJson Swift.strings hash := by
  simp [hashValue, displayed, Value.document, hashJson, Swift.strings]

theorem document_treeValue (tree : TreeRef ContentHash) :
    (treeValue (displayed F) tree).document.rebuild canonicalOrder =
      (treeJson Swift.strings tree).rebuild canonicalOrder := by
  rw [treeValue, rebuild_structValue (by simp)]
  simp [documentMember, document_hashValue, treeJson, Strings.literal, Swift.strings]

theorem document_authorValue (author : AuruPm.AuthorIdentity) :
    (authorValue author).document.rebuild canonicalOrder =
      ((plainAuthor author).toJson Swift.strings).rebuild canonicalOrder := by
  obtain ⟨_, _, _, email⟩ := author
  rw [authorValue, rebuild_structValue (by cases email <;> simp [skipNone])]
  cases email <;>
    simp [documentMember, skipNone, Value.document, plainAuthor, AuthorIdentity.toJson, optionalMember,
      Strings.literal, Swift.strings]

/-- In canonical order, the document of the kernel is the value of the libraries. -/
theorem document_canonicalValue {commit : AuruPm.Commit ContentHash} (ht : commit.Typed) :
    (canonicalValue (displayed F) commit).document.rebuild canonicalOrder =
      (plainJson commit).rebuild canonicalOrder := by
  have htimestamp := document_ofInt ht.timestamp.1 ht.timestamp.2
  have hformat : (Value.number (.ofInt commit.formatVersion)).document =
      .int (.ofInt commit.formatVersion) := by
    have := ht.formatVersion
    exact document_ofInt (by omega) (by omega)
  have hparents : (Value.array (commit.parents.map (hashValue (displayed F)))).document =
      .arr (commit.parents.map (hashJson Swift.strings)) := by
    rw [Value.document, Value.documentElems_eq, List.map_map]
    exact congrArg arr (List.map_congr_left fun hash _ => document_hashValue hash)
  have hmetadata : ∀ hash : Option ContentHash,
      (skipNone "metadata" (hashValue (displayed F)) hash).map documentMember =
        optionalMember Swift.strings "metadata" (hash.map (hashJson Swift.strings)) := by
    intro hash
    cases hash with
    | none => rfl
    | some hash => exact congrArg (fun v => [("metadata".toList, v)]) (document_hashValue hash)
  have hmessage : ∀ text : String, (Value.string text).document = .str text.toList := fun _ => rfl
  rw [canonicalValue, commitValue, List.cons_append,
    rebuild_remove _ (by cases commit.metadata <;> simp [skipNone]), plainJson, contentJson,
    rebuild_obj, rebuild_obj, contentMembers, List.map_append, hmetadata]
  congr 2
  simp only [List.map_append, List.map_cons, List.map_nil, documentMember, hparents, htimestamp,
    hformat, hmessage, document_treeValue, document_authorValue, content]
  rfl

end Kernel

/-- Every integer of a commit is one that the canonical text has a form for. -/
theorem encodable_plainJson {commit : AuruPm.Commit ContentHash} (ht : commit.Typed)
    (hr : commit.InRange) : Encodable (plainJson commit : JsonValue (List Char) D) := by
  obtain ⟨hlow, hhigh⟩ := hr
  have hsafe : ∀ i : Int, -(2 ^ 53 - 1) ≤ i → i ≤ 2 ^ 53 - 1 →
      SafeNumber (.int (.ofInt i) : JsonValue (List Char) D) := by
    intro i hlow hhigh
    refine ⟨by simp, fun number heq => ?_⟩
    cases heq
    rw [ofInt_toInt (by omega) (by omega)]
    exact ⟨hlow, hhigh⟩
  have hformat := ht.formatVersion
  refine everywhere_obj.mpr ⟨by simp [SafeNumber], ?_⟩
  exact everywhere_contentMembers (by simp [SafeNumber]) (by simp [SafeNumber])
    (hsafe _ hlow hhigh) (hsafe _ (by omega) (by omega)) (by simp [SafeNumber, treeJson])
    (by simp [SafeNumber, AuthorIdentity.toJson])

theorem rfc8785_congr {v w : JsonValue (List Char) D}
    (h : v.rebuild canonicalOrder = w.rebuild canonicalOrder) : rfc8785 v = rfc8785 w := by
  rw [rfc8785, rfc8785, canonicalScalars, canonicalScalars, h]

/-- The canonical bytes of a value without fractional numbers do not depend on their type. -/
theorem rfc8785_map {D₁ : Type} (g : D → D₁) {v : JsonValue (List Char) D} (hv : v.Distinct)
    (hintegral : v.Integral) : rfc8785 (v.map id g) = rfc8785 v := by
  have hsorted : (v.map id g).rebuild canonicalOrder = (v.rebuild canonicalOrder).map id g :=
    rebuild_map (fun ms _ => canonicalOrder_map (JsonValue.map id g) ms) hv
  have hscalars : canonicalScalars (v.map id g) = (canonicalScalars v).flatMap fun c => [c] := by
    rw [canonicalScalars, hsorted]
    exact compact_map transparent_scalars (fun _ => (List.flatMap_singleton' _).symm)
      fun w hw number heq => absurd heq (integral_canonicalOrder hintegral w hw number)
  rw [rfc8785, hscalars, List.flatMap_singleton', rfc8785]

theorem distinct_plainJson (commit : AuruPm.Commit ContentHash) :
    Distinct (plainJson commit : JsonValue (List Char) D) :=
  distinct_contentJson Swift.lawful_strings _

theorem integral_of_encodable {v : JsonValue T D} (h : Encodable v) : v.Integral :=
  fun w hw => (h w hw).1

/-! The bytes tell the commit. -/

/-- The canonical bytes of a value are read as the value in canonical order. -/
theorem rebuild_eq_of_rfc8785_eq {v w : JsonValue (List Char) Rat} (hv : v.Distinct)
    (hw : w.Distinct) (hve : Encodable v) (hwe : Encodable w) (h : rfc8785 v = rfc8785 w) :
    v.rebuild canonicalOrder = w.rebuild canonicalOrder := by
  have hread : ∀ u : JsonValue (List Char) Rat, u.Distinct → Encodable u →
      JsonValue.parse (Swift.reader fun _ => 0) (rfc8785 u) = some (u.rebuild canonicalOrder) := by
    intro u hu hue
    have hround := roundTrips (Swift.lawful_writer fun _ => []) (Swift.encodes fun _ => [])
      Function.injective_id
      (fun _ hdistinct hint => Swift.parse_compact (fun _ => 0) hdistinct hint) hu
      (integral_of_encodable hue)
    rw [map_id, map_id] at hround
    exact (hround.canonical _ (Swift.canonical_of_encodable (fun _ => []) hu hue)).1
  have hparse := hread v hv hve
  rw [h, hread w hw hwe, Option.some.injEq] at hparse
  exact hparse.symm

theorem find?_perm {A : Type} {ms ms' : List (List Char × A)} (h : ms.Perm ms')
    (hnames : (ms.map Prod.fst).Nodup) (name : List Char) :
    (ms.find? fun m => m.1 = name) = ms'.find? fun m => m.1 = name := by
  induction h with
  | nil => rfl
  | cons m _ ih =>
    rw [List.find?_cons, List.find?_cons, ih (List.nodup_cons.mp hnames).2]
  | swap m m' ms =>
    simp only [List.map_cons, List.nodup_cons, List.mem_cons, not_or] at hnames
    by_cases h : m.1 = name
    · have h' : m'.1 ≠ name := fun heq => hnames.1.1 (heq.trans h.symm)
      simp [h, h']
    · simp [h, List.find?_cons]
  | trans h₁ _ ih₁ ih₂ =>
    exact (ih₁ hnames).trans (ih₂ ((h₁.map Prod.fst).nodup_iff.mp hnames))

theorem present_rebuild (v : JsonValue (List Char) D) :
    present (v.rebuild canonicalOrder) = (present v).map (rebuild canonicalOrder) := by
  cases v <;> rfl

theorem find_rebuild {v : JsonValue (List Char) D} (hv : DistinctNames v) (name : String) :
    find Swift.strings (v.rebuild canonicalOrder) name =
      (find Swift.strings v name).map (rebuild canonicalOrder) := by
  cases v with
  | obj members =>
    rw [rebuild_obj]
    have hnames : ((members.map fun m => (m.1, m.2.rebuild canonicalOrder)).map Prod.fst).Nodup := by
      rw [List.map_map]
      exact hv
    have hperm := perm_canonicalOrder (members.map fun m => (m.1, m.2.rebuild canonicalOrder))
    simp only [find]
    rw [find?_perm hperm ((hperm.map Prod.fst).nodup_iff.mpr hnames), List.find?_map,
      Option.bind_map, Option.map_bind]
    refine Option.bind_congr fun m _ => ?_
    exact present_rebuild m.2
  | _ => rfl

/-- Values that are the same in canonical order have the same members. -/
theorem find_congr {v w : JsonValue (List Char) D} (hv : DistinctNames v) (hw : DistinctNames w)
    (h : v.rebuild canonicalOrder = w.rebuild canonicalOrder) (name : String) :
    (find Swift.strings v name).map (rebuild canonicalOrder) =
      (find Swift.strings w name).map (rebuild canonicalOrder) := by
  rw [← find_rebuild hv, ← find_rebuild hw, h]

theorem hashJson_injective :
    Function.Injective (hashJson Swift.strings : ContentHash → JsonValue (List Char) D) := by
  intro hash hash' h
  have htext : hash.toText = hash'.toText := JsonValue.str.inj h
  have hparse := hash.parse_toText
  rw [htext, hash'.parse_toText, Option.some.injEq] at hparse
  exact hparse.symm

theorem rebuild_str (text : List Char) :
    (str text : JsonValue (List Char) D).rebuild canonicalOrder = .str text := rfl

theorem treeJson_injective {tree tree' : TreeRef ContentHash}
    (h : (treeJson Swift.strings tree : JsonValue (List Char) D).rebuild canonicalOrder =
      (treeJson Swift.strings tree').rebuild canonicalOrder) : tree = tree' := by
  have hnames : ∀ tree, DistinctNames (treeJson Swift.strings tree : JsonValue (List Char) D) :=
    fun _ => nodup_literals Swift.lawful_strings ["snapshot", "samples"] (by simp)
  have hfind := find_congr (hnames tree) (hnames tree') h
  have hsnapshot := hfind "snapshot"
  have hsamples := hfind "samples"
  simp only [treeJson, find_cons Swift.lawful_strings, String.reduceEq, if_true, if_false, hashJson,
    present, Option.map_some, rebuild_str, Option.some.injEq] at hsnapshot hsamples
  exact congrArg₂ TreeRef.mk (hashJson_injective hsnapshot) (hashJson_injective hsamples)

theorem authorJson_injective {author author' : AuthorIdentity (List Char)}
    (h : (author.toJson Swift.strings : JsonValue (List Char) D).rebuild canonicalOrder =
      (author'.toJson Swift.strings).rebuild canonicalOrder) : author = author' := by
  have hnames : ∀ author : AuthorIdentity (List Char),
      DistinctNames (author.toJson Swift.strings : JsonValue (List Char) D) := fun author =>
    names_authorJson Swift.lawful_strings author
  have hfind := find_congr (hnames author) (hnames author') h
  have hdisplay := hfind "display_name"
  have huser := hfind "provider_user_id"
  have hprovider := hfind "provider_id"
  have hemail := hfind "email"
  rw [find_email Swift.lawful_strings, find_email Swift.lawful_strings, Option.map_map,
    Option.map_map] at hemail
  have hinjective : Function.Injective (rebuild canonicalOrder ∘ JsonValue.str :
      List Char → JsonValue (List Char) D) := fun _ _ heq => JsonValue.str.inj heq
  simp only [AuthorIdentity.toJson, List.cons_append, find_cons Swift.lawful_strings,
    String.reduceEq, if_true, if_false, present, Option.map_some, rebuild_str,
    Option.some.injEq, JsonValue.str.injEq] at hdisplay huser hprovider
  obtain ⟨_, _, _, _⟩ := author
  obtain ⟨_, _, _, _⟩ := author'
  rw [AuthorIdentity.mk.injEq]
  exact ⟨hdisplay, huser, hprovider, Option.map_injective hinjective hemail⟩

theorem plainAuthor_injective : Function.Injective plainAuthor := by
  rintro ⟨_, _, _, _⟩ ⟨_, _, _, _⟩ h
  obtain ⟨hdisplay, huser, hprovider, hemail⟩ := (AuthorIdentity.mk.injEq ..).mp h
  rw [AuruPm.AuthorIdentity.mk.injEq]
  exact ⟨String.toList_injective hdisplay, String.toList_injective huser,
    String.toList_injective hprovider,
    Option.map_injective (fun _ _ => String.toList_injective) hemail⟩

theorem plainJson_injective {commit other : AuruPm.Commit ContentHash} (ht : commit.Typed)
    (ho : other.Typed)
    (h : (plainJson commit : JsonValue (List Char) D).rebuild canonicalOrder =
      (plainJson other).rebuild canonicalOrder) : { commit with id := other.id } = other := by
  have hnames : ∀ commit, DistinctNames (plainJson commit : JsonValue (List Char) D) := fun commit =>
    (everywhere_obj.mp (distinct_plainJson commit)).1
  have hfind := find_congr (hnames commit) (hnames other) h
  have hparents := hfind "parents"
  have hauthor := hfind "author"
  have htimestamp := hfind "timestamp"
  have hmessage := hfind "message"
  have hdescription := hfind "description"
  have hauru := hfind "auru_version"
  have hformat := hfind "format_version"
  have hmetadata := hfind "metadata"
  rw [plainJson, plainJson, find_metadata Swift.lawful_strings, find_metadata Swift.lawful_strings,
    Option.map_map, Option.map_map] at hmetadata
  simp only [plainJson, contentJson, contentMembers, content, List.cons_append,
    find_cons Swift.lawful_strings, String.reduceEq, if_true, if_false, present, Option.map_some,
    rebuild, rebuildElements_eq, List.map_map, Option.some.injEq, JsonValue.str.injEq,
    JsonValue.int.injEq, JsonValue.arr.injEq] at hparents hmessage hdescription hauru htimestamp hformat
  have hhash : Function.Injective (rebuild canonicalOrder ∘ hashJson Swift.strings :
      ContentHash → JsonValue (List Char) D) := fun _ _ heq => hashJson_injective heq
  have hint : ∀ {i i' : Int}, -2 ^ 63 ≤ i → i < 2 ^ 63 → -2 ^ 63 ≤ i' → i' < 2 ^ 63 →
      Int64.ofInt i = Int64.ofInt i' → i = i' := by
    intro i i' hi hi' hj hj' heq
    rw [← ofInt_toInt hi hi', heq, ofInt_toInt hj hj']
  have hversion := ht.formatVersion
  have hversion' := ho.formatVersion
  have hformatEq : commit.formatVersion = other.formatVersion :=
    Int.ofNat_inj.mp (hint (by omega) (by omega) (by omega) (by omega) hformat)
  have hauthorEq := plainAuthor_injective (authorJson_injective (Option.some.inj hauthor))
  obtain ⟨_, _, _, _, _, _, _, _, _, _⟩ := commit
  obtain ⟨_, _, _, _, _, _, _, _, _, _⟩ := other
  rw [AuruPm.Commit.mk.injEq]
  refine ⟨rfl, List.map_injective_iff.mpr hhash hparents,
    treeJson_injective (Option.some.inj (hfind "tree")), hauthorEq,
    hint ht.timestamp.1 ht.timestamp.2 ho.timestamp.1 ho.timestamp.2 htimestamp,
    String.toList_injective hmessage, String.toList_injective hdescription,
    String.toList_injective hauru, hformatEq, Option.map_injective hhash hmetadata⟩

section Encodings
variable {Bytes : Type} (F : Formats Bytes ContentHash) {jcs : Value → Except String (List Nat)}
  {A B C : Type} (formatDouble : A → List Nat) (javaDouble : B → List Nat)
  (swiftDouble : C → List Nat)

/-- The bytes of a commit. -/
def commitBytes (commit : AuruPm.Commit ContentHash) : List Nat :=
  rfc8785 (plainJson commit : JsonValue (List Char) Rat)

theorem rfc8785_plainJson {commit : AuruPm.Commit ContentHash} (ht : commit.Typed)
    (hr : commit.InRange) :
    rfc8785 (plainJson commit : JsonValue (List Char) D) = commitBytes commit := by
  have hplain : ∀ {D : Type} (g : Empty → D),
      (plainJson commit : JsonValue (List Char) D) = (plainJson commit).map id g := fun g =>
    contentJson_map (S := Swift.strings) g commit
  have hintegral : Integral (plainJson commit : JsonValue (List Char) Empty) :=
    integral_of_encodable (encodable_plainJson ht hr)
  rw [commitBytes, hplain Empty.elim, rfc8785_map _ (distinct_plainJson commit) hintegral,
    hplain (D := Rat) Empty.elim, rfc8785_map _ (distinct_plainJson commit) hintegral]

theorem jcs_eq (hjcs : ∀ value : Value, Encodable value.document →
      jcs value = .ok (rfc8785 value.document)) {commit : AuruPm.Commit ContentHash}
    (ht : commit.Typed) (hr : commit.InRange) :
    jcs (canonicalValue (displayed F) commit) = .ok (commitBytes commit) := by
  have hdocument := document_canonicalValue (F := F) ht
  have hencodable : Encodable (canonicalValue (displayed F) commit).document := by
    refine everywhere_of_rebuild (F := canonicalOrder) (by simp [SafeNumber]) (by simp [SafeNumber])
      (fun ms _ hm => (perm_canonicalOrder ms).mem_iff.mpr hm) ?_
    rw [hdocument]
    exact everywhere_rebuild (by simp [SafeNumber]) (by simp [SafeNumber])
      (fun ms _ hm => (perm_canonicalOrder ms).mem_iff.mp hm) (encodable_plainJson ht hr)
  rw [hjcs _ hencodable, rfc8785_congr hdocument, commitBytes]

theorem canonicalEncodings_eq {commit : AuruPm.Commit ContentHash} (ht : commit.Typed)
    (hr : commit.InRange) :
    Cpp.canonicalEncoding formatDouble (content utf8 commit) = some (commitBytes commit) ∧
      Java.canonicalEncoding javaDouble (content utf16 commit) = some (commitBytes commit) ∧
      Swift.canonicalEncoding swiftDouble (content id commit) = some (commitBytes commit) := by
  have hcpp : contentJson Cpp.strings (content utf8 commit) =
      (plainJson commit : JsonValue (List Char) A).map utf8 id :=
    contentJson_map (S := Cpp.strings) id commit
  have hjava : contentJson Java.strings (content utf16 commit) =
      (plainJson commit : JsonValue (List Char) B).map utf16 id :=
    contentJson_map (S := Java.strings) id commit
  refine ⟨?_, ?_, ?_⟩
  · rw [Cpp.canonicalEncoding, hcpp, Cpp.canonical_of_encodable formatDouble
      (distinct_plainJson commit) (encodable_plainJson ht hr), rfc8785_plainJson ht hr]
  · rw [Java.canonicalEncoding, hjava, Java.canonical_of_accepts javaDouble
      (distinct_plainJson commit) fun w hw => Or.inr (encodable_plainJson ht hr w hw),
      rfc8785_plainJson ht hr]
  · have hswift := Swift.canonical_of_encodable swiftDouble (distinct_plainJson commit)
      (encodable_plainJson ht hr)
    rw [plainJson] at hswift
    rw [Swift.canonicalEncoding, hswift, Option.map_some]
    exact congrArg some (rfc8785_plainJson ht hr)

/-- The kernel and the three libraries encode a commit as the same bytes, and two commits with the
same bytes differ in their ids alone. -/
theorem encodings_agree (hjcs : ∀ value : Value, Encodable value.document →
      jcs value = .ok (rfc8785 value.document)) :
    (∀ commit : AuruPm.Commit ContentHash, commit.Typed → commit.InRange →
      ∃ bytes, jcs (canonicalValue (displayed F) commit) = .ok bytes ∧
        Cpp.canonicalEncoding formatDouble (content utf8 commit) = some bytes ∧
        Java.canonicalEncoding javaDouble (content utf16 commit) = some bytes ∧
        Swift.canonicalEncoding swiftDouble (content id commit) = some bytes) ∧
      ∀ commit other : AuruPm.Commit ContentHash, commit.Typed → commit.InRange → other.Typed →
        other.InRange →
        jcs (canonicalValue (displayed F) commit) = jcs (canonicalValue (displayed F) other) →
          { commit with id := other.id } = other := by
  constructor
  · intro commit ht hr
    exact ⟨_, jcs_eq F hjcs ht hr, canonicalEncodings_eq formatDouble javaDouble swiftDouble ht hr⟩
  · intro commit other ht hr ho hor h
    rw [jcs_eq F hjcs ht hr, jcs_eq F hjcs ho hor, Except.ok.injEq] at h
    exact plainJson_injective ht ho (rebuild_eq_of_rfc8785_eq (distinct_plainJson commit)
      (distinct_plainJson other) (encodable_plainJson ht hr) (encodable_plainJson ho hor) h)

end Encodings

/-! A merge with an astral message. -/

def noFormats : Formats (List Nat) ContentHash where
  contentHash _ := zeroHash
  zero := zeroHash
  hashText _ := ""
  byteLength := List.length
  encodeFrame := id
  decodeFrame := some
  encodeCommit _ := .error "unused"
  decodeCommit _ := .error "unused"
  encodeManifest _ := .error "unused"
  decodeManifest _ := .error "unused"
  encodeValue _ := []
  decodeValue _ := .error "unused"

def mergeCommit : AuruPm.Commit ContentHash where
  id := zeroHash
  parents := [zeroHash, zeroHash]
  tree := ⟨zeroHash, zeroHash⟩
  author := ⟨"Test User", "user-1", "local-folder", some "test@example.org"⟩
  timestamp := -(2 ^ 53 - 1)
  message := "take \"2\" 🎵"
  description := "\u0001"
  auruVersion := "0.1.0"
  formatVersion := 2 ^ 32 - 1
  metadata := none

theorem mergeCommit_encodings : ∃ bytes,
    (fun value : Value => (.ok (rfc8785 value.document) : Except String (List Nat)))
        (canonicalValue (displayed noFormats) mergeCommit) = .ok bytes ∧
      Cpp.canonicalEncoding (fun _ : Nat => []) (content utf8 mergeCommit) = some bytes ∧
      Java.canonicalEncoding (fun _ : Nat => []) (content utf16 mergeCommit) = some bytes ∧
      Swift.canonicalEncoding (fun _ : Nat => []) (content id mergeCommit) = some bytes :=
  (encodings_agree noFormats (fun _ : Nat => []) (fun _ : Nat => []) (fun _ : Nat => [])
      fun _ _ => rfl).1
    mergeCommit ⟨by decide, by decide⟩ (by unfold Commit.InRange; decide)

end Sdk

end AuruPm
