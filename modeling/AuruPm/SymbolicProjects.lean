import AuruPm.Dawproject
import AuruPm.Symbolic

/-!
# Symbolic projects

The kernel's readers over the symbolic store: documents are checked as the JSON parser checks
them, and the codecs of other libraries keep what they encode.
-/

namespace AuruPm

set_option autoImplicit false

open SortedAssoc

/-- Terms for documents, which are well formed and not too deep. -/
def symbolicJson : Formats Term Term :=
  { symbolic with
    decodeValue := fun
      | .value v => if v.wf && decide (v.depth ≤ 127) then .ok v else .error "invalid"
      | _ => .error "invalid" }

theorem symbolicJson_lawful : symbolicJson.Lawful where
  hash_injective := symbolic_lawful.hash_injective
  decode_frame := symbolic_lawful.decode_frame
  encode_id := symbolic_lawful.encode_id
  decode_commit := symbolic_lawful.decode_commit
  decode_manifest := symbolic_lawful.decode_manifest

theorem symbolicJson_readsBack : symbolicJson.ReadsBack 127 where
  decoded bytes v h := by
    cases bytes with
    | value w =>
      simp only [symbolicJson] at h
      split at h
      · rename_i hshape
        cases h
        simpa using hshape
      · cases h
    | _ => cases h
  encoded v hwf hdepth := by
    refine ⟨v, ?_, rfl⟩
    simp only [symbolicJson, symbolic, hwf, hdepth, decide_true, Bool.and_self, if_true]

/-- Texts are their own base64, and archives list their entries. -/
def symbolicCodecs : Codecs Term Term where
  isAlphabetic := Char.isAlpha
  isAlphanumeric := Char.isAlphanum
  parseHash s := some (.text s)
  base64Encode
    | .text s => s
    | _ => ""
  base64Decode s := .ok (.text s)
  isBitwig _ := false
  writeXml _ := .ok (.text "xml")
  gzip bytes := .ok bytes
  flFromTree _ := .error "invalid"
  zipStart _ _ := .ok ()
  zipWrite _ _ _ := .ok ()
  zipFinish entries := .ok (Term.ofList (fun e => .pair (.text e.1) e.2) entries)

def dawReaders : Readers Term Term :=
  kernelReaders symbolicJson symbolicCodecs (fun _ => []) (fun _ => none)

end AuruPm
