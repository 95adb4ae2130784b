import AuruPm.PortableSnapshot

/-!
# Paths and files of the host

The parts of `std::path` and `std::fs` that planning and restoring use, on Unix. A path is the
list of its components, which is what the equality of paths compares. A disk is what the
operations of the file system answer.
-/

namespace AuruPm

set_option autoImplicit false

/-! Texts. -/

/-- The segments of a text between separators. -/
def segments (isSeparator : Char → Bool) (text : String) : List String :=
  (text.toList.splitOnP isSeparator).map String.ofList

def isSlash (c : Char) : Bool := c = '/'

/-- Ableton and FL Studio write either slash. -/
def isAnySlash (c : Char) : Bool := c = '/' || c = '\\'

/-- `rsplit_once('.')` -/
def rsplitDot (name : List Char) : Option (List Char × List Char) :=
  match name.reverse.dropWhile (· ≠ '.') with
  | [] => none
  | _ :: stem => some (stem.reverse, (name.reverse.takeWhile (· ≠ '.')).reverse)

def eqIgnoreAsciiCase (a b : String) : Bool :=
  a.toList.map Char.toLower = b.toList.map Char.toLower

/-- Whether a path starts with a drive such as `E:/`. -/
def hasWindowsDrive (path : String) : Bool :=
  match path.toList with
  | drive :: ':' :: slash :: _ => drive.isAlpha && isAnySlash slash
  | _ => false

/-! Paths. -/

/-- A file name, which need not be UTF-8. -/
inductive OsName where
  | text (name : String)
  | raw (bytes : List UInt8)
  deriving DecidableEq

def OsName.toStr : OsName → Option String
  | .text name => some name
  | .raw _ => none

def OsName.bytes : OsName → List UInt8
  | .text name => name.toList.flatMap String.utf8EncodeChar
  | .raw bytes => bytes

inductive Component where
  | rootDir
  | curDir
  | parentDir
  | normal (name : OsName)
  deriving DecidableEq

abbrev HostPath := List Component

instance : LawfulBEq HostPath := inferInstance

namespace HostPath

def ofSegment (segment : String) : Option Component :=
  if segment = "" ∨ segment = "." then none
  else if segment = ".." then some .parentDir
  else some (.normal (.text segment))

/-- `Path::components` of a text. -/
def ofText (text : String) : HostPath :=
  match segments isSlash text with
  | [] => []
  | [""] => []
  | "" :: rest => .rootDir :: rest.filterMap ofSegment
  | "." :: rest => .curDir :: rest.filterMap ofSegment
  | first :: rest => (ofSegment first).toList ++ rest.filterMap ofSegment

def isRelative (path : HostPath) : Bool := path.head? ≠ some .rootDir

/-- `Path::join` -/
def join (base path : HostPath) : HostPath :=
  match path with
  | .rootDir :: _ => path
  | .curDir :: rest => if base = [] then path else base ++ rest
  | _ => base ++ path

def child (base : HostPath) (name : OsName) : HostPath := base ++ [.normal name]

def fileName (path : HostPath) : Option OsName :=
  match path.getLast? with
  | some (.normal name) => some name
  | _ => none

def parent (path : HostPath) : Option HostPath :=
  match path.getLast? with
  | none => none
  | some .rootDir => none
  | some _ => some path.dropLast

/-- The file name before and after its last dot, unless it only starts with one. -/
def splitName (name : String) : String × Option String :=
  match rsplitDot name.toList with
  | none => (name, none)
  | some ([], _) => (name, none)
  | some (stem, extension) => (String.ofList stem, some (String.ofList extension))

/-- `file_stem`, where it is UTF-8. -/
def fileStem (path : HostPath) : Option String :=
  (fileName path).bind fun name => name.toStr.map fun name => (splitName name).1

/-- Whether these bytes end in a dot and this ASCII extension, in any case, after some name. -/
def rawExtensionIs (extension : String) (bytes : List UInt8) : Bool :=
  let suffix := ('.' :: extension.toList).map fun c => (c.toNat.toUInt8)
  let lower := bytes.map fun b => if 65 ≤ b ∧ b ≤ 90 then b + 32 else b
  decide (suffix.length < bytes.length) && suffix.isSuffixOf lower

/-- Whether the extension is this one, in any ASCII case. -/
def extensionIs (extension : String) (path : HostPath) : Bool :=
  match fileName path with
  | none => false
  | some (.text name) =>
    match (splitName name).2 with
    | none => false
    | some ext => eqIgnoreAsciiCase ext extension
  | some (.raw bytes) => rawExtensionIs extension bytes

/-- `PathBuf::pop` -/
def pop (path : HostPath) : HostPath := (parent path).getD path

/-- Folds `.` and `..` lexically. -/
def normalize (path : HostPath) : HostPath :=
  path.foldl (fun out component => match component with
    | .parentDir => pop out
    | .curDir => out
    | component => join out [component]) []

/-- `starts_with` -/
def startsWith (path base : HostPath) : Bool := base.isPrefixOf path

/-- `to_native_relative`: both slashes separate. -/
def ofRecorded (recorded : String) : HostPath :=
  ofText ("/".intercalate ((segments isAnySlash recorded).filter (· ≠ "")))

/-- A path as it is printed. -/
def display (path : HostPath) : String :=
  let text (component : Component) : String := match component with
    | .rootDir => ""
    | .curDir => "."
    | .parentDir => ".."
    | .normal (.text name) => name
    | .normal (.raw _) => "\uFFFD"
  if path = [.rootDir] then "/" else "/".intercalate (path.map text)

end HostPath

/-! Disks. -/

mutual
/-- What lies in a folder under one name, links not followed. -/
inductive Item where
  | link
  | file (length : Nat)
  | folder (listing : Listing)
  /-- Its metadata or its entries cannot be read. -/
  | failing (error : String)
/-- The answers of an iterator over a folder. -/
inductive Listing where
  | done
  | entry (name : OsName) (item : Item) (rest : Listing)
  | broken (error : String) (rest : Listing)
end

def Listing.names : Listing → List OsName
  | .done => []
  | .entry name _ rest => name :: rest.names
  | .broken _ rest => rest.names

/-- A name that a folder can hold. -/
def OsName.Plain : OsName → Prop
  | .text name => name ∉ ["", ".", ".."] ∧ '/' ∉ name.toList
  | .raw _ => True

instance (name : OsName) : Decidable name.Plain := by
  cases name <;> simp only [OsName.Plain] <;> infer_instance

mutual
/-- Every folder lists names that it can hold, each once. -/
def Item.Proper : Item → Prop
  | .folder listing => listing.Proper
  | _ => True
def Listing.Proper : Listing → Prop
  | .done => True
  | .entry name item rest => name.Plain ∧ name ∉ rest.names ∧ item.Proper ∧ rest.Proper
  | .broken _ rest => rest.Proper
end

/-- What the file system and the environment answer. -/
structure Machine (Bytes : Type) where
  isFile : HostPath → Bool
  isDir : HostPath → Bool
  /-- `std::fs::read` -/
  read : HostPath → Option Bytes
  /-- `std::fs::read_dir`, with the folders below. -/
  readDir : HostPath → Except String Listing
  proper : ∀ path listing, readDir path = .ok listing → listing.Proper
  /-- The home directory that the environment names. -/
  home : Option String

end AuruPm
