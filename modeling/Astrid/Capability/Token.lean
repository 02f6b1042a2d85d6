import Astrid.Lib.Try
import Astrid.Lib.BigEndian

/-!
# Capability tokens

`astrid-capabilities`, `pattern.rs` and `token.rs`: a token grants permissions for the
resources that its pattern matches, and is signed by the runtime. A pattern is matched
literally or as a glob. `ResourcePattern::new` decides that by the characters of the text,
`exact` always takes the text literally; the choice is not part of the text. A token is
persisted as its fields, with the text of its pattern (`StoredToken`), and reading it back
builds the pattern with `new`.
-/

namespace Astrid.Capability

open Std

abbrev Text := List Char

instance : Key Char where

instance transOrdText : @TransOrd Text Key.toOrd := inferInstance

/-- A UUID. -/
abbrev TokenId := BitVec 128

instance transOrdTokenId : @TransOrd TokenId Key.toOrd := inferInstance

inductive CapabilityError
  | tokenExpired (id : TokenId)
  | tokenRevoked (id : TokenId)
  | tokenNotFound (id : TokenId)
  | tokenAlreadyUsed (id : TokenId)
  | invalidSignature
  | invalidPattern (pattern : Text) (reason : String)
  | storageError (detail : String)
  | serializationError (detail : String)
  deriving DecidableEq

/-! ## Patterns -/

/-- The `globset` crate: which texts compile, and what a compiled text matches. -/
structure Globset where
  compile : Text → Except String Unit
  isMatch : Text → Text → Bool

/-- What follows the first `://`, or else everything. -/
def afterScheme : Text → Option Text
  | ':' :: '/' :: '/' :: rest => some rest
  | _ :: rest => afterScheme rest
  | [] => none

/-- Detects `..` as a path segment. -/
def containsPathTraversal (s : Text) : Bool :=
  (((afterScheme s).getD s).splitOn '/').any (· == ['.', '.'])

def hasGlobCharacters (s : Text) : Bool := s.contains '*' || s.contains '?' || s.contains '['

/-- A pattern that matches resources: its text, and whether it has a compiled matcher, which
is then that of its text. -/
structure ResourcePattern (globs : Globset) where
  pattern : Text
  isGlob : Bool
  no_traversal : containsPathTraversal pattern = false
  compiles : isGlob = true → hasGlobCharacters pattern = true ∧ globs.compile pattern = .ok ()

namespace ResourcePattern

variable {globs : Globset}

def traversalReason : String := "path traversal detected: pattern contains '..' segment"

section

variable (globs : Globset)

def new (pattern : Text) : Except CapabilityError (ResourcePattern globs) :=
  if htraversal : containsPathTraversal pattern = false then
    if hglob : hasGlobCharacters pattern = true then
      match hcompile : globs.compile pattern with
      | .ok () => .ok ⟨pattern, true, htraversal, fun _ => ⟨hglob, hcompile⟩⟩
      | .error e => .error (.invalidPattern pattern e)
    else .ok ⟨pattern, false, htraversal, nofun⟩
  else .error (.invalidPattern pattern traversalReason)

def exact (pattern : Text) : Except CapabilityError (ResourcePattern globs) :=
  if htraversal : containsPathTraversal pattern = false then
    .ok ⟨pattern, false, htraversal, nofun⟩
  else .error (.invalidPattern pattern traversalReason)

/-- A directory and all beneath it. -/
def fileDir (path : Text) : Except CapabilityError (ResourcePattern globs) :=
  new globs (['f', 'i', 'l', 'e', ':', '/', '/'] ++ path ++ ['/', '*', '*'])

/-- One file. -/
def fileExact (path : Text) : Except CapabilityError (ResourcePattern globs) :=
  exact globs (['f', 'i', 'l', 'e', ':', '/', '/'] ++ path)

/-- One tool of one server. -/
def mcpTool (server tool : Text) : Except CapabilityError (ResourcePattern globs) :=
  exact globs (['m', 'c', 'p', ':', '/', '/'] ++ server ++ [':'] ++ tool)

/-- All tools of one server. -/
def mcpServer (server : Text) : Except CapabilityError (ResourcePattern globs) :=
  new globs (['m', 'c', 'p', ':', '/', '/'] ++ server ++ [':', '*'])

end

/-- Resources with path traversal never match. -/
def «matches» (p : ResourcePattern globs) (resource : Text) : Bool :=
  if containsPathTraversal resource then false
  else if p.isGlob then globs.isMatch p.pattern resource
  else p.pattern == resource

/-- The patterns that the constructors build. -/
inductive Built : ResourcePattern globs → Prop
  | new {text p} (h : new globs text = .ok p) : Built p
  | exact {text p} (h : exact globs text = .ok p) : Built p
  | fileDir {path p} (h : fileDir globs path = .ok p) : Built p
  | fileExact {path p} (h : fileExact globs path = .ok p) : Built p
  | mcpTool {server tool p} (h : mcpTool globs server tool = .ok p) : Built p
  | mcpServer {server p} (h : mcpServer globs server = .ok p) : Built p

end ResourcePattern

/-! ## Principals -/

def principalCharacter (c : Char) : Bool := c.isAlphanum || c == '-' || c == '_'

/-- ASCII letters, digits, hyphens and underscores, 1 to 64 of them. -/
structure PrincipalId where
  text : Text
  valid : text ≠ [] ∧ text.length ≤ 64 ∧ text.all principalCharacter = true
  deriving DecidableEq

instance : Ord PrincipalId := ⟨fun left right => compare left.text right.text⟩

theorem PrincipalId.ext_text {left right : PrincipalId} (h : left.text = right.text) :
    left = right := by
  cases left
  cases right
  cases h
  rfl

instance : TransOrd PrincipalId where
  eq_swap {left right} :=
    show compare left.text right.text = (compare right.text left.text).swap from
      OrientedCmp.eq_swap
  isLE_trans {first second third} h h' :=
    show (compare first.text third.text).isLE from
      TransCmp.isLE_trans (show (compare first.text second.text).isLE from h) h'

instance : LawfulEqOrd PrincipalId where
  compare_self {name} := show compare name.text name.text = .eq from ReflCmp.compare_self
  eq_of_compare h := PrincipalId.ext_text (LawfulEqOrd.eq_of_compare h)

instance : Key PrincipalId where

/-! ## Tokens -/

inductive Permission
  | read
  | write
  | execute
  | delete
  | invoke
  | list
  | create
  deriving DecidableEq

def Permission.text : Permission → Text
  | .read => ['r', 'e', 'a', 'd']
  | .write => ['w', 'r', 'i', 't', 'e']
  | .execute => ['e', 'x', 'e', 'c', 'u', 't', 'e']
  | .delete => ['d', 'e', 'l', 'e', 't', 'e']
  | .invoke => ['i', 'n', 'v', 'o', 'k', 'e']
  | .list => ['l', 'i', 's', 't']
  | .create => ['c', 'r', 'e', 'a', 't', 'e']

inductive TokenScope
  | session
  | persistent
  deriving DecidableEq

def TokenScope.text : TokenScope → Text
  | .session => ['s', 'e', 's', 's', 'i', 'o', 'n']
  | .persistent => ['p', 'e', 'r', 's', 'i', 's', 't', 'e', 'n', 't']

/-- The fields of a token besides its pattern. Times are in nanoseconds. -/
structure TokenFields where
  id : TokenId
  permissions : List Permission
  issuedAt : Int
  expiresAt : Option Int
  scope : TokenScope
  issuer : Bytes
  userId : Bytes
  approvalAuditId : BitVec 128
  singleUse : Bool
  principal : PrincipalId
  signature : Bytes
  deriving DecidableEq

structure CapabilityToken (globs : Globset) extends TokenFields where
  resource : ResourcePattern globs

/-- A persisted token: a pattern is written as its text. -/
structure StoredToken extends TokenFields where
  resource : Text
  deriving DecidableEq

def utf8 (text : Text) : Bytes := text.flatMap String.utf8EncodeChar

def lengthPrefixed (bytes : Bytes) : Bytes := leBytes 4 bytes.length ++ bytes

/-- Whole seconds, as `i64` in little-endian bytes. -/
def timestampBytes (nanoseconds : Int) : Bytes :=
  leBytes 8 ((nanoseconds / 1000000000) % 18446744073709551616).toNat

/-- What the signature covers: everything but itself, with the text of the pattern. -/
def signingData (fields : TokenFields) (resource : Text) : Bytes :=
  [2] ++ lengthPrefixed (beBytes 16 fields.id.toNat) ++ lengthPrefixed (utf8 resource) ++
    leBytes 4 fields.permissions.length ++
    fields.permissions.flatMap (fun permission => lengthPrefixed (utf8 permission.text)) ++
    timestampBytes fields.issuedAt ++
    (match fields.expiresAt with
      | some expires => 1 :: timestampBytes expires
      | none => [0]) ++
    lengthPrefixed (utf8 fields.scope.text) ++ fields.issuer ++ fields.userId ++
    lengthPrefixed (beBytes 16 fields.approvalAuditId.toNat) ++
    [if fields.singleUse then 1 else 0] ++ lengthPrefixed (utf8 fields.principal.text)

/-- Verification of a signature: public key, message, signature. -/
abbrev Verify := Bytes → Bytes → Bytes → Bool

namespace CapabilityToken

variable {globs : Globset}

def verifySignature (verify : Verify) (token : CapabilityToken globs) :
    Except CapabilityError Unit :=
  if verify token.issuer (signingData token.toTokenFields token.resource.pattern) token.signature
    then .ok () else .error .invalidSignature

def isExpiredWithSkew (now : Int) (token : CapabilityToken globs) (skewSecs : Int) : Bool :=
  match token.expiresAt with
  | some expires => expires + skewSecs * 1000000000 < now
  | none => false

def isExpired (now : Int) (token : CapabilityToken globs) : Bool := token.isExpiredWithSkew now 0

def defaultClockSkewSecs : Int := 30

/-- Not expired, and signed. -/
def validate (verify : Verify) (now : Int) (token : CapabilityToken globs) :
    Except CapabilityError Unit :=
  if token.isExpiredWithSkew now defaultClockSkewSecs then .error (.tokenExpired token.id)
  else token.verifySignature verify

variable (token : CapabilityToken globs)

def grants (resource : Text) (permission : Permission) : Bool :=
  token.resource.matches resource && token.permissions.contains permission

def serialize : StoredToken :=
  ⟨token.toTokenFields, token.resource.pattern⟩

def deserialize (globs : Globset) (stored : StoredToken) :
    Except CapabilityError (CapabilityToken globs) :=
  match ResourcePattern.new globs stored.resource with
  | .ok resource => .ok ⟨stored.toTokenFields, resource⟩
  | .error _ => .error (.serializationError "invalid resource pattern")

end CapabilityToken

end Astrid.Capability
