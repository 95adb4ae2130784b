import AuruPm.SdkCommit
import AuruPm.SdkRoundTrip

/-!
# Values and commits read back

Each library reads back what it writes: the ordinary text of a value as the value, the canonical
text as the value in canonical order, and the wire form of a commit as the commit.
-/

namespace AuruPm

set_option autoImplicit false

open JsonValue CodeUnits

namespace Sdk

variable {T D : Type}

theorem quoted_of_readString {unicode : List Nat → Option (List Nat × List Nat)}
    (hU : EscapeLaw unicode) {R : Reader T D} {text : T} {units : List Nat}
    (hread : ∀ s, readString unicode s = some (units, []) → R.text s = some (text, [])) :
    Quoted R.tokens text (quote units) :=
  ⟨_, rfl, hread _ (readString_escaped hU units)⟩

/-! Each parser and the compact texts of its own writer. -/

theorem Cpp.parse_compact (strtod : List Nat → D) {double : D → List Nat}
    {v : JsonValue (List Nat) D} (hv : v.Distinct) (hintegral : v.Integral) :
    Cpp.parse strtod (compact writeString double v) = some v :=
  Sdk.parse_compact (Cpp.lawful_reader strtod)
    (parseNumber_decimal fun literal => some (strtod literal))
    (fun _ => quoted_of_readString Cpp.escapeLaw fun _ h => h) (fun _ _ => rfl) hv hintegral

theorem Java.put_eq_append {A : Type} {name : List Nat} (v : A) {ms : List (List Nat × A)}
    (h : name ∉ ms.map Prod.fst) : Java.put name v ms = ms ++ [(name, v)] := by
  induction ms with
  | nil => rfl
  | cons m ms ih =>
    obtain ⟨name', v'⟩ := m
    rw [List.map_cons, List.mem_cons, not_or] at h
    rw [Java.put, if_neg (Ne.symm h.1), ih h.2]
    rfl

/-- A linked map of distinct names keeps them all, in their order. -/
theorem Java.linkedMap_eq_self {A : Type} {ms : List (List Nat × A)}
    (h : (ms.map Prod.fst).Nodup) : Java.linkedMap ms = ms := by
  have hfold : ∀ done : List (List Nat × A), ((done ++ ms).map Prod.fst).Nodup →
      ms.foldl (fun ms m => Java.put m.1 m.2 ms) done = done ++ ms := by
    clear h
    induction ms with
    | nil => exact fun done _ => (List.append_nil done).symm
    | cons m ms ih =>
      intro done hnodup
      have hfresh : m.1 ∉ done.map Prod.fst := by
        rw [List.map_append, List.nodup_append'] at hnodup
        exact fun hmem => hnodup.2.2 hmem List.mem_cons_self
      rw [List.foldl_cons, Java.put_eq_append m.2 hfresh, ih _ (by simpa using hnodup)]
      simp
  exact hfold [] h

theorem Java.parse_compact {digit : Nat → Option Nat} (hdigit : AsciiDigits digit)
    (parseDouble : List Nat → D) {double : D → List Nat} {v : JsonValue (List Nat) D}
    (hv : v.Distinct) (hintegral : v.Integral) :
    Java.parse digit parseDouble (compact writeString double v) = some v :=
  Sdk.parse_compact (Java.lawful_reader hdigit parseDouble)
    (parseNumber_decimal fun literal => if isDecimal literal then some (parseDouble literal) else none)
    (fun _ => quoted_of_readString (Java.escapeLaw hdigit) fun _ h => h)
    (fun _ h => Java.linkedMap_eq_self h) hv hintegral

theorem Swift.parse_compact (double : List Nat → D) {doubleText : D → List Nat}
    {v : JsonValue (List Char) D} (hv : v.Distinct) (hintegral : v.Integral) :
    Swift.parse double (compact (fun text => writeString (scalars text)) doubleText v) = some v := by
  have hbytes : (compact (fun text => writeString (scalars text)) doubleText v).flatMap utf8Units =
      compact (fun text => quote (utf8 text)) (fun _ => []) v := by
    have hmap := @compact_map _ D _ D _ transparent_utf8 id id
      (fun text => writeString (scalars text)) (fun text => quote (utf8 text)) doubleText
      (fun _ => []) (fun text => quote_flatMap transparent_utf8 (scalars text)) v
      fun w hw number heq => absurd heq (hintegral w hw number)
    rw [← hmap, map_id]
  rw [Swift.parse, hbytes]
  refine Sdk.parse_compact (Swift.lawful_reader double)
    (parseNumber_decimal fun literal => if isDecimal literal then some (double literal) else none)
    (fun text => ?_) (fun _ _ => rfl) hv hintegral
  refine quoted_of_readString Swift.escapeLaw fun s h => ?_
  change (readString Swift.readUnicode s).map _ = _
  rw [h]
  exact congrArg (fun text => some (text, [])) (decodeUtf8_utf8 text)

/-! Values. -/

/-- The ordinary text is read as the value and the canonical text as `sorted`, whose canonical text
is the same. -/
structure RoundTrips (toText : JsonValue T D → List Nat)
    (toCanonical : JsonValue T D → Option (List Nat)) (parse : List Nat → Option (JsonValue T D))
    (v sorted : JsonValue T D) : Prop where
  ordinary : parse (toText v) = some v
  canonical : ∀ text, toCanonical v = some text →
    parse text = some sorted ∧ toCanonical sorted = some text

theorem canonicalOrder_idem {A : Type} (ms : List (List Char × A)) :
    canonicalOrder (canonicalOrder ms) = canonicalOrder ms :=
  List.mergeSort_of_pairwise ((pairwise_canonicalOrder ms).imp decide_eq_true)

theorem roundTrips {W : Writer T D} (hW : W.Lawful) {expand : Nat → List Nat}
    {encode : List Char → T} (hE : W.Encodes expand encode) (hencode : encode.Injective)
    {parse : List Nat → Option (JsonValue T D)}
    (hparse : ∀ v : JsonValue T D, v.Distinct → v.Integral →
      parse (compact W.string W.double v) = some v)
    {v : JsonValue (List Char) D} (hv : v.Distinct) (hintegral : v.Integral) :
    RoundTrips (fun w => (write W false w).getD []) (write W true) parse (v.map encode id)
      ((v.rebuild canonicalOrder).map encode id) := by
  have hencoded : ∀ {w : JsonValue (List Char) D}, w.Distinct → w.Integral →
      (w.map encode id).Distinct ∧ (w.map encode (id : D → D)).Integral := by
    intro w hdistinct hint
    refine ⟨(distinct_map hencode id).mpr hdistinct, everywhere_map.mpr fun u hu number heq => ?_⟩
    cases u <;> cases heq
    exact hint _ hu _ rfl
  have hsorted : (v.rebuild canonicalOrder).Distinct :=
    distinct_rebuild (fun ms _ => perm_canonicalOrder ms) hv
  constructor
  · obtain ⟨hdistinct, hint⟩ := hencoded hv hintegral
    rw [write_false, Option.getD_some]
    exact hparse _ hdistinct hint
  · intro text htext
    obtain ⟨hdistinct, hint⟩ := hencoded hsorted (integral_canonicalOrder hintegral)
    have haccepts : Accepts W (v.map encode id) :=
      accepts_of_write hW ((distinct_map hencode id).mpr hv) (by rw [htext]; rfl)
    have hsortedAccepts : Accepts W ((v.rebuild canonicalOrder).map encode id) :=
      everywhere_map.mpr <| everywhere_rebuild (by simp [map]) (by simp [map])
        (fun ms _ hm => (perm_canonicalOrder ms).mem_iff.mp hm) (everywhere_map.mp haccepts)
    rw [write_true hW haccepts, rebuild_encoded hE hv, Option.some.injEq] at htext
    subst htext
    refine ⟨hparse _ hdistinct hint, ?_⟩
    rw [write_true hW hsortedAccepts, rebuild_encoded hE hsorted,
      rebuild_rebuild canonicalOrder_map canonicalOrder_idem]

/-! Hashes. -/

theorem lowercaseHex_digitChar : ∀ n < 16, lowercaseHex (Nat.digitChar n).toNat = some n := by
  decide

theorem hexBytes_byteText (bytes : List UInt8) :
    hexBytes (scalars (bytes.flatMap byteText)) = some bytes := by
  induction bytes with
  | nil => rfl
  | cons byte bytes ih =>
    have hlt := byte.toNat_lt
    have hbyte : UInt8.ofNat (16 * (byte.toNat / 16) + byte.toNat % 16) = byte := by
      rw [Nat.div_add_mod, UInt8.ofNat_toNat]
    change hexBytes ((Nat.digitChar (byte.toNat / 16)).toNat ::
      (Nat.digitChar (byte.toNat % 16)).toNat :: scalars (bytes.flatMap byteText)) = _
    rw [hexBytes, lowercaseHex_digitChar _ (by omega), lowercaseHex_digitChar _ (by omega), ih]
    exact congrArg (fun byte => some (byte :: bytes)) hbyte

theorem ContentHash.toText_eq (hash : ContentHash) :
    hash.toText = "blake3:".toList ++ hash.bytes.flatMap byteText := rfl

theorem ContentHash.ascii_toText (hash : ContentHash) : ∀ c ∈ hash.toText, c.toNat < 0x80 := by
  have hdigit : ∀ n < 16, (Nat.digitChar n).toNat < 0x80 := by decide
  intro c hc
  rw [ContentHash.toText_eq, List.mem_append] at hc
  rcases hc with hc | hc
  · have hprefix : ∀ c ∈ "blake3:".toList, c.toNat < 0x80 := by simp
    exact hprefix c hc
  · obtain ⟨byte, _, hc⟩ := List.mem_flatMap.mp hc
    have hlt := byte.toNat_lt
    simp only [byteText, List.mem_cons, List.not_mem_nil, or_false] at hc
    rcases hc with rfl | rfl <;> exact hdigit _ (by omega)

theorem ContentHash.parse_toText (hash : ContentHash) :
    ContentHash.parse (scalars hash.toText) = some hash := by
  have hscalars : scalars hash.toText = ascii "blake3:" ++ scalars (hash.bytes.flatMap byteText) := by
    rw [ContentHash.toText_eq, ascii, scalars, scalars, List.map_append]
  have hlength : (scalars (hash.bytes.flatMap byteText)).length = 64 := by
    simp [scalars, byteText, hash.length_bytes]
  have hprefix : (ascii "blake3:").length = 7 := rfl
  unfold ContentHash.parse
  rw [hscalars, if_pos, List.drop_left' hprefix, hexBytes_byteText, Option.bind_some,
    dif_pos hash.length_bytes]
  rw [List.length_append, hlength, hprefix, List.take_left' hprefix]
  exact ⟨rfl, rfl⟩

/-! Members. -/

/-- Texts are told apart, and ASCII is read unit by unit. -/
structure Strings.Lawful (S : Strings T) : Prop where
  ofText_injective : S.ofText.Injective
  units_ascii : ∀ text : List Char, (∀ c ∈ text, c.toNat < 0x80) →
    S.units (S.ofText text) = scalars text

theorem Cpp.lawful_strings : Cpp.strings.Lawful where
  ofText_injective := utf8_injective
  units_ascii _ h := transparent_utf8.flatMap_eq_self (List.forall_mem_map.mpr h)

theorem Java.lawful_strings : Java.strings.Lawful where
  ofText_injective := utf16_injective
  units_ascii _ h := transparent_utf16.flatMap_eq_self (List.forall_mem_map.mpr h)

theorem Swift.lawful_strings : Swift.strings.Lawful where
  ofText_injective := Function.injective_id
  units_ascii _ _ := rfl

section Find
variable {S : Strings T} (hS : S.Lawful)
include hS

theorem literal_inj {name name' : String} : S.literal name = S.literal name' ↔ name = name' := by
  rw [Strings.literal, Strings.literal, hS.ofText_injective.eq_iff, String.toList_inj]

theorem find_cons [DecidableEq T] (name name' : String) (v : JsonValue T D) (ms : List (T × JsonValue T D)) :
    find S (.obj ((S.literal name', v) :: ms)) name =
      if name' = name then present v else find S (.obj ms) name := by
  simp only [find, List.find?_cons, literal_inj hS]
  split <;> simp_all

end Find

/-! The wire form. -/

/-- How an optional string is read: as nothing where it is missing. -/
structure ReadsOptional [DecidableEq T] (S : Strings T)
    (optional : JsonValue T D → String → Option (Option T)) : Prop where
  absent : ∀ v name, find S v name = none → optional v name = some none
  string : ∀ v name text, find S v name = some (.str text) → optional v name = some (some text)

theorem readsOptional_optionalString [DecidableEq T] (S : Strings T) :
    ReadsOptional S (optionalString S : JsonValue T D → String → Option (Option T)) := by
  constructor
  · intro v name h
    rw [optionalString, h, Option.bind_none]
  · intro v name text h
    rw [optionalString, h, Option.bind_some]
    rfl

theorem readsOptional_optString [DecidableEq T] (S : Strings T) :
    ReadsOptional S (optString S : JsonValue T D → String → Option (Option T)) := by
  constructor
  · intro v name h
    rw [optString, h]
  · intro v name text h
    rw [optString, h]
    rfl

section Wire
variable {S : Strings T} (hS : S.Lawful)
include hS

theorem parse_ofText (hash : ContentHash) :
    ContentHash.parse (S.units (S.ofText hash.toText)) = some hash := by
  rw [hS.units_ascii _ hash.ascii_toText, hash.parse_toText]

theorem mapM_parents (parents : List ContentHash) :
    ((parents.map (hashJson S)).mapM fun parent : JsonValue T D =>
      (asText parent).bind fun text => ContentHash.parse (S.units text)) = some parents := by
  induction parents with
  | nil => rfl
  | cons parent parents ih =>
    have hparent : ((asText (hashJson S parent : JsonValue T D)).bind fun text =>
        ContentHash.parse (S.units text)) = some parent := parse_ofText hS parent
    rw [List.map_cons, List.mapM_cons, hparent, ih]
    rfl

variable [DecidableEq T]

theorem hashAt_of_find {v : JsonValue T D} {name : String} {hash : ContentHash}
    (h : find S v name = some (hashJson S hash)) : hashAt S v name = some hash := by
  rw [hashAt, stringAt, h]
  exact parse_ofText hS hash

theorem find_optionalMember (name : String) (value : Option (JsonValue T D))
    (hvalue : ∀ v, value = some v → present v = some v) :
    find S (.obj (optionalMember S name value)) name = value := by
  cases value with
  | none => rfl
  | some v =>
    change find S (.obj ((S.literal name, v) :: [])) name = some v
    rw [find_cons hS, if_pos rfl, hvalue v rfl]

theorem treeFromJson_treeJson (tree : TreeRef ContentHash) :
    treeFromJson S (treeJson S tree : JsonValue T D) = some tree := by
  have hsnapshot : hashAt S (treeJson S tree : JsonValue T D) "snapshot" = some tree.snapshot :=
    hashAt_of_find hS (by simp [treeJson, find_cons hS, hashJson, present])
  have hsamples : hashAt S (treeJson S tree : JsonValue T D) "samples" = some tree.samples :=
    hashAt_of_find hS (by simp [treeJson, find_cons hS, hashJson, present])
  rw [treeFromJson, hsnapshot, hsamples]
  rfl

theorem find_email (author : AuthorIdentity T) :
    find S (author.toJson S : JsonValue T D) "email" = author.email.map .str := by
  simp only [AuthorIdentity.toJson, List.cons_append, List.nil_append, find_cons hS,
    String.reduceEq, if_false]
  refine find_optionalMember hS _ _ fun v hv => ?_
  obtain ⟨text, _, rfl⟩ := Option.map_eq_some_iff.mp hv
  rfl

theorem find_metadata (content : Content T) :
    find S (contentJson S content : JsonValue T D) "metadata" =
      content.metadata.map (hashJson S) := by
  simp only [contentJson, contentMembers, List.cons_append, List.nil_append, find_cons hS,
    String.reduceEq, if_false]
  refine find_optionalMember hS _ _ fun v hv => ?_
  obtain ⟨hash, _, rfl⟩ := Option.map_eq_some_iff.mp hv
  rfl

theorem authorFromJson_toJson {optional : JsonValue T D → String → Option (Option T)}
    (ho : ReadsOptional S optional) (author : AuthorIdentity T) :
    authorFromJson S optional (author.toJson S) = some author := by
  have hemail := find_email (D := D) hS author
  have hread : optional (author.toJson S) "email" = some author.email := by
    cases h : author.email with
    | none => exact ho.absent _ _ (by rw [hemail, h, Option.map_none])
    | some email => exact ho.string _ _ _ (by rw [hemail, h, Option.map_some])
  rw [authorFromJson, hread]
  simp [stringAt, AuthorIdentity.toJson, find_cons hS, present, asText]

/-- A commit is read back from its wire form. -/
theorem fromJson_toJson {optional : JsonValue T D → String → Option (Option T)}
    (ho : ReadsOptional S optional) (commit : Commit T) :
    Commit.fromJson S optional (commit.toJson S) = some commit := by
  have hid : hashAt S (commit.toJson S : JsonValue T D) "id" = some commit.id :=
    hashAt_of_find hS (by simp [Commit.toJson, find_cons hS, hashJson, present])
  have hdescription : optional (commit.toJson S) "description" = some (some commit.description) :=
    ho.string _ _ _ (by simp [Commit.toJson, contentMembers, find_cons hS, present])
  have hmetadata : find S (commit.toJson S : JsonValue T D) "metadata" =
      commit.metadata.map (hashJson S) := by
    rw [Commit.toJson, find_cons hS, if_neg (by decide)]
    exact find_metadata hS commit.toContent
  have hread : optional (commit.toJson S) "metadata" =
      some (commit.metadata.map fun hash => S.ofText hash.toText) := by
    cases h : commit.metadata with
    | none => exact ho.absent _ _ (by rw [hmetadata, h, Option.map_none])
    | some hash => exact ho.string _ _ _ (by rw [hmetadata, h]; rfl)
  have hparents : find S (commit.toJson S : JsonValue T D) "parents" =
      some (.arr (commit.parents.map (hashJson S))) := by
    simp [Commit.toJson, contentMembers, find_cons hS, present]
  have htree : find S (commit.toJson S : JsonValue T D) "tree" = some (treeJson S commit.tree) := by
    simp [Commit.toJson, contentMembers, find_cons hS, present, treeJson]
  have hauthor : find S (commit.toJson S : JsonValue T D) "author" =
      some (commit.author.toJson S) := by
    simp [Commit.toJson, contentMembers, find_cons hS, present, AuthorIdentity.toJson]
  have hscalar : integerAt S (commit.toJson S : JsonValue T D) "timestamp" = some commit.timestamp ∧
      stringAt S (commit.toJson S : JsonValue T D) "message" = some commit.message ∧
      stringAt S (commit.toJson S : JsonValue T D) "auru_version" = some commit.auruVersion ∧
      integerAt S (commit.toJson S : JsonValue T D) "format_version" = some commit.formatVersion := by
    simp [integerAt, stringAt, Commit.toJson, contentMembers, find_cons hS, present, asText, asInteger]
  obtain ⟨htimestamp, hmessage, hauru, hformat⟩ := hscalar
  have hmetadataHash : (commit.metadata.map fun hash => S.ofText hash.toText).elim (some none)
      (fun text => (ContentHash.parse (S.units text)).map some) = some commit.metadata := by
    cases commit.metadata with
    | none => rfl
    | some hash => exact congrArg (Option.map some) (parse_ofText hS hash)
  rw [Commit.fromJson, hid, hparents, htree, hauthor, htimestamp, hmessage, hdescription, hauru,
    hformat, hread]
  simp only [Option.bind_eq_bind, Option.bind_some, elements, mapM_parents hS,
    treeFromJson_treeJson hS, authorFromJson_toJson hS ho, hmetadataHash, Option.getD_some]
  rfl

end Wire

section Values
variable {S : Strings T}

theorem nodup_literals (hS : S.Lawful) (names : List String) (h : names.Nodup) :
    (names.map S.literal).Nodup :=
  h.map fun _ _ => (literal_inj hS).mp

theorem names_optionalMember (name : String) {A : Type} (f : A → JsonValue T D) (value : Option A) :
    (optionalMember S name (value.map f)).map Prod.fst =
      (value.toList.map fun _ => name).map S.literal := by
  cases value <;> rfl

/-- Everything in a member is a leaf or holds leaves. -/
theorem everywhere_contentMembers {P : JsonValue T D → Prop} (hstr : ∀ text, P (.str text))
    (harr : ∀ elements, P (.arr elements)) {content : Content T}
    (htimestamp : P (.int content.timestamp)) (hformat : P (.int content.formatVersion))
    (htree : P (treeJson S content.tree)) (hauthor : P (content.author.toJson S)) :
    ∀ m ∈ contentMembers S content, Everywhere P m.2 := by
  have hleafStr : ∀ text, Everywhere P (.str text) := fun text =>
    List.forall_mem_singleton.mpr (hstr text)
  have hleafInt : ∀ number, P (.int number) → Everywhere P (.int number) := fun number h =>
    List.forall_mem_singleton.mpr h
  have hoptional : ∀ (name : String) (value : Option T),
      ∀ m ∈ optionalMember S name (value.map .str), Everywhere P m.2 := by
    intro name value m hm
    cases value with
    | none => cases hm
    | some text =>
      rw [List.mem_singleton.mp hm]
      exact hleafStr text
  have hmetadata : ∀ m ∈ optionalMember S "metadata" (content.metadata.map (hashJson S)),
      Everywhere P m.2 := by
    have := hoptional "metadata" (content.metadata.map fun hash => S.ofText hash.toText)
    rwa [Option.map_map] at this
  have htreeAll : Everywhere P (treeJson S content.tree) :=
    everywhere_obj.mpr ⟨htree, by simp [hashJson, hleafStr]⟩
  have hauthorAll : Everywhere P (content.author.toJson S) :=
    everywhere_obj.mpr ⟨hauthor, List.forall_mem_append.mpr ⟨by simp [hleafStr], hoptional _ _⟩⟩
  have hparents : Everywhere P (.arr (content.parents.map (hashJson S))) :=
    everywhere_arr.mpr ⟨harr _, List.forall_mem_map.mpr fun parent _ => hleafStr _⟩
  exact List.forall_mem_append.mpr
    ⟨by simp [hleafStr, hleafInt _ htimestamp, hleafInt _ hformat, htreeAll, hauthorAll, hparents],
      hmetadata⟩

theorem integral_toJson (commit : Commit T) : Integral (commit.toJson S : JsonValue T D) := by
  refine everywhere_obj.mpr ⟨by simp, List.forall_mem_cons.mpr
    ⟨List.forall_mem_singleton.mpr (by simp), ?_⟩⟩
  exact everywhere_contentMembers (by simp) (by simp) (by simp) (by simp) (by simp [treeJson])
    (by simp [AuthorIdentity.toJson])

theorem names_authorJson (hS : S.Lawful) (author : AuthorIdentity T) :
    DistinctNames (author.toJson S : JsonValue T D) := by
  have hnames := nodup_literals hS (["display_name", "provider_user_id", "provider_id"] ++
    author.email.toList.map fun _ => "email") (by cases author.email <;> simp)
  rw [List.map_append, ← names_optionalMember "email" (JsonValue.str (D := D))] at hnames
  exact hnames

theorem distinct_contentMembers (hS : S.Lawful) (content : Content T) :
    ∀ m ∈ (contentMembers S content : List (T × JsonValue T D)), m.2.Distinct := by
  refine everywhere_contentMembers (fun _ => trivial) (fun _ => trivial) trivial trivial ?_ ?_
  · exact nodup_literals hS ["snapshot", "samples"] (by simp)
  · exact names_authorJson hS content.author

theorem names_toJson (hS : S.Lawful) (commit : Commit T) :
    DistinctNames (commit.toJson S : JsonValue T D) := by
  have hnames := nodup_literals hS (["id", "parents", "tree", "author", "timestamp", "message",
    "description", "auru_version", "format_version"] ++
      commit.metadata.toList.map fun _ => "metadata") (by cases commit.metadata <;> simp)
  rw [List.map_append, ← names_optionalMember "metadata" (hashJson S (D := D))] at hnames
  exact hnames

theorem distinct_toJson (hS : S.Lawful) (commit : Commit T) :
    Distinct (commit.toJson S : JsonValue T D) :=
  everywhere_obj.mpr ⟨names_toJson hS commit, List.forall_mem_cons.mpr
    ⟨List.forall_mem_singleton.mpr trivial, distinct_contentMembers hS commit.toContent⟩⟩

/-- The content has every member of the wire form but the id. -/
theorem distinct_contentJson (hS : S.Lawful) (content : Content T) :
    Distinct (contentJson S content : JsonValue T D) := by
  have hnames : ∀ id, DistinctNames (Commit.toJson S ⟨content, id⟩ : JsonValue T D) := fun id =>
    names_toJson hS ⟨content, id⟩
  exact everywhere_obj.mpr ⟨(List.nodup_cons.mp (hnames ⟨List.replicate 32 0, rfl⟩)).2,
    distinct_contentMembers hS content⟩

end Values

/-! Commits. -/

theorem derive_eq_some {encoding : Content T → Option (List Nat)} {hash : List Nat → ContentHash}
    {content : Content T} {commit : Commit T} (h : derive encoding hash content = some commit) :
    ∃ bytes, encoding commit.toContent = some bytes ∧ hash bytes = commit.id := by
  unfold derive at h
  split at h
  · cases h
  · obtain ⟨bytes, hbytes, rfl⟩ := Option.map_eq_some_iff.mp h
    exact ⟨bytes, hbytes, rfl⟩

/-- The wire form of a commit, as a text, is read as the commit. -/
theorem commit_readsBack [DecidableEq T] {S : Strings T} (hS : S.Lawful)
    {optional : JsonValue T D → String → Option (Option T)} (ho : ReadsOptional S optional)
    {parse : List Nat → Option (JsonValue T D)} {text : List Nat} {commit : Commit T}
    (hparse : (commit.toJson S : JsonValue T D).Distinct → (commit.toJson S : JsonValue T D).Integral →
      parse text = some (commit.toJson S)) :
    (parse text).bind (Commit.fromJson S optional) = some commit := by
  rw [hparse (distinct_toJson hS commit) (integral_toJson commit), Option.bind_some,
    fromJson_toJson hS ho]

section ReadBack
variable {digit : Nat → Option Nat} (strtod parseDouble double : List Nat → D)
  (formatDouble javaDouble swiftDouble : D → List Nat)

/-- What a library writes of a value without fractional numbers it reads back, and what it writes
of a commit that it built. -/
theorem libraries_readBack (hdigit : AsciiDigits digit) (hash : List Nat → ContentHash) :
    (∀ v : JsonValue (List Char) D, v.Distinct → v.Integral →
      RoundTrips (Cpp.toJsonText formatDouble) (Cpp.toCanonicalJson formatDouble)
          (Cpp.parse strtod) (v.map utf8 id) ((v.rebuild canonicalOrder).map utf8 id) ∧
        RoundTrips (Java.toJsonText javaDouble) (Java.toCanonicalJson javaDouble)
          (Java.parse digit parseDouble) (v.map utf16 id)
          ((v.rebuild canonicalOrder).map utf16 id) ∧
        RoundTrips (Swift.jsonText swiftDouble) (Swift.canonicalJSON swiftDouble)
          (Swift.parse double) v (v.rebuild canonicalOrder)) ∧
      (∀ builder commit, Cpp.build formatDouble hash builder = some commit →
        (Cpp.parse strtod (Cpp.toJsonText formatDouble (commit.toJson Cpp.strings))).bind
            Cpp.commitFromJson = some commit ∧
          Cpp.verifyId formatDouble hash commit = true) ∧
      (∀ builder commit, Java.build javaDouble hash builder = some commit →
        (Java.parse digit parseDouble
            (Java.toJsonText javaDouble (commit.toJson Java.strings))).bind
            Java.commitFromJson = some commit ∧
          Java.verifyId javaDouble hash commit = some true) ∧
      ∀ content commit, Swift.commit swiftDouble hash content = some commit →
        (Swift.parse double (Swift.jsonText swiftDouble (commit.toJson Swift.strings))).bind
            Swift.commitFromJson = some commit ∧
          Swift.verifyID swiftDouble hash commit = true := by
  refine ⟨fun v hv hintegral => ⟨?_, ?_, ?_⟩, fun builder commit h => ?_, fun builder commit h => ?_,
    fun content commit h => ?_⟩
  · exact roundTrips (Cpp.lawful_writer formatDouble) (Cpp.encodes formatDouble) utf8_injective
      (fun _ hdistinct hint => Cpp.parse_compact strtod hdistinct hint) hv hintegral
  · exact roundTrips (Java.lawful_writer javaDouble) (Java.encodes javaDouble) utf16_injective
      (fun _ hdistinct hint => Java.parse_compact hdigit parseDouble hdistinct hint) hv hintegral
  · have hround := roundTrips (Swift.lawful_writer swiftDouble) (Swift.encodes swiftDouble)
      Function.injective_id
      (fun _ hdistinct hint => Swift.parse_compact double hdistinct hint) hv hintegral
    rwa [map_id, map_id] at hround
  · obtain ⟨content, _, hderive⟩ := Option.bind_eq_some_iff.mp h
    obtain ⟨bytes, hbytes, hid⟩ := derive_eq_some hderive
    refine ⟨commit_readsBack Cpp.lawful_strings (readsOptional_optionalString _) ?_, ?_⟩
    · intro hdistinct hint
      rw [Cpp.toJsonText, write_false, Option.getD_some]
      exact Cpp.parse_compact strtod hdistinct hint
    · rw [Cpp.verifyId, hbytes]
      exact decide_eq_true hid
  · obtain ⟨content, _, hderive⟩ := Option.bind_eq_some_iff.mp h
    obtain ⟨bytes, hbytes, hid⟩ := derive_eq_some hderive
    refine ⟨commit_readsBack Java.lawful_strings (readsOptional_optString _) ?_, ?_⟩
    · intro hdistinct hint
      rw [Java.toJsonText, write_false, Option.getD_some]
      exact Java.parse_compact hdigit parseDouble hdistinct hint
    · rw [Java.verifyId, hbytes]
      exact congrArg some (decide_eq_true hid)
  · obtain ⟨bytes, hbytes, hid⟩ := derive_eq_some h
    refine ⟨commit_readsBack Swift.lawful_strings (readsOptional_optionalString _) ?_, ?_⟩
    · intro hdistinct hint
      rw [Swift.jsonText, write_false, Option.getD_some]
      exact Swift.parse_compact double hdistinct hint
    · rw [Swift.verifyID, hbytes]
      exact decide_eq_true hid

end ReadBack

/-! A value with an escaped name and an astral one, and a merge. -/

def noisyValue : JsonValue (List Char) Nat :=
  .obj [(['😀'], .arr [.int Int64.minValue, .str ['"', '\\', Char.ofNat 1, 'é']]), (['a'], .null)]

def zeroHash : ContentHash := ⟨List.replicate 32 0, List.length_replicate⟩

def mergeBuilder : Builder (List Nat) where
  parents := [zeroHash, zeroHash]
  tree := some ⟨zeroHash, zeroHash⟩
  author := some ⟨utf16 "Test User".toList, utf16 "user-1".toList, utf16 "local-folder".toList, none⟩
  timestamp := some 1700000000
  message := some (utf16 "take \"2\" 🎵".toList)
  description := []
  auruVersion := some (utf16 "0.1.0".toList)
  formatVersion := some 8
  metadata := some zeroHash

theorem noisy_readsBack :
    Cpp.parse (fun _ => 0) (Cpp.toJsonText (fun _ => []) (noisyValue.map utf8 id)) =
        some (noisyValue.map utf8 id) ∧
      ∃ commit, Java.build (D := Nat) (fun _ => []) (fun _ => zeroHash) mergeBuilder = some commit ∧
        Java.verifyId (D := Nat) (fun _ => []) (fun _ => zeroHash) commit = some true := by
  have hread := libraries_readBack (D := Nat) (fun _ => 0) (fun _ => 0) (fun _ => 0) (fun _ => [])
    (fun _ => []) (fun _ => []) (fun _ _ => rfl : AsciiDigits hexValue) fun _ => zeroHash
  have hdistinct : noisyValue.Distinct := by
    simp [noisyValue, Everywhere, DistinctNames, subvalues, memberSubvalues, elementSubvalues]
  have hintegral : noisyValue.Integral := by
    simp [noisyValue, Everywhere, subvalues, memberSubvalues, elementSubvalues]
  have hbuild : (Java.build (D := Nat) (fun _ => []) (fun _ => zeroHash) mergeBuilder).isSome := by
    decide +kernel
  obtain ⟨commit, hcommit⟩ := Option.isSome_iff_exists.mp hbuild
  exact ⟨(hread.1 noisyValue hdistinct hintegral).1.ordinary, commit, hcommit,
    (hread.2.2.1 mergeBuilder commit hcommit).2⟩

end Sdk

end AuruPm
