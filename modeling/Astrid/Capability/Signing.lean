import Astrid.Capability.Revoked

/-!
# The signing payload

The signed bytes of a token determine its fields. Each field has a fixed width or stands behind
its length. The permissions stand behind their number modulo `2 ^ 32`, which suffices: eight bytes
of a time and the flag of the expiry follow them, and no two permissions begin like that.
-/

namespace Astrid.Capability

open List

theorem utf8_inj {text text' : Text} (h : utf8 text = utf8 text') : text = text' := by
  have hbytes : text.utf8Encode = text'.utf8Encode := by
    exact congrArg List.toByteArray h
  exact String.ofList_injective (String.toByteArray_inj.1 hbytes)

theorem lengthPrefixed_append_inj {field field' rest rest' : Bytes}
    (hfield : field.length < 256 ^ 4) (hfield' : field'.length < 256 ^ 4)
    (h : lengthPrefixed field ++ rest = lengthPrefixed field' ++ rest') :
    field = field' ∧ rest = rest' := by
  rw [lengthPrefixed, lengthPrefixed, append_assoc, append_assoc] at h
  obtain ⟨hlength, hrest⟩ := append_inj h (by simp)
  exact append_inj hrest (leBytes_inj hfield hfield' hlength)

def permissionBytes (permission : Permission) : Bytes := lengthPrefixed (utf8 permission.text)

theorem permissionBytes_append_inj {first second : Permission} {rest rest' : Bytes}
    (h : permissionBytes first ++ rest = permissionBytes second ++ rest') :
    first = second ∧ rest = rest' := by
  have hshort : ∀ permission : Permission, (utf8 permission.text).length < 256 ^ 4 := by
    intro permission
    cases permission <;> decide
  obtain ⟨htext, hrest⟩ := lengthPrefixed_append_inj (hshort _) (hshort _) h
  refine ⟨?_, hrest⟩
  have := utf8_inj htext
  revert this
  cases first <;> cases second <;> decide

/-- The whole seconds of a time. -/
def seconds (nanoseconds : Int) : Int := nanoseconds / 1000000000

def InI64 (value : Int) : Prop := -2 ^ 63 ≤ value ∧ value < 2 ^ 63

theorem timestampBytes_inj {time time' : Int} (htime : InI64 (seconds time))
    (htime' : InI64 (seconds time')) (h : timestampBytes time = timestampBytes time') :
    seconds time = seconds time' := by
  have hwords := leBytes_inj (n := 8) (by omega) (by omega) h
  unfold InI64 seconds at *
  omega

def expiryBytes (expiresAt : Option Int) : Bytes :=
  match expiresAt with
  | some expires => 1 :: timestampBytes expires
  | none => [0]

theorem expiryBytes_append_inj {expires expires' : Option Int} {rest rest' : Bytes}
    (hexpires : ∀ time ∈ expires, InI64 (seconds time))
    (hexpires' : ∀ time ∈ expires', InI64 (seconds time))
    (h : expiryBytes expires ++ rest = expiryBytes expires' ++ rest') :
    expires.map seconds = expires'.map seconds ∧ rest = rest' := by
  cases expires <;> cases expires'
  · exact ⟨rfl, (cons.inj h).2⟩
  · cases (cons.inj h).1
  · cases (cons.inj h).1
  · obtain ⟨htime, hrest⟩ := append_inj (cons.inj h).2 (by simp [timestampBytes])
    exact ⟨congrArg some (timestampBytes_inj (hexpires _ rfl) (hexpires' _ rfl) htime), hrest⟩

section

variable {issued issued' : Int} {expires expires' : Option Int} {rest rest' : Bytes}

/-- No time and flag of an expiry are the start of two permissions. -/
theorem ne_two_permissions (first second : Permission) :
    timestampBytes issued ++ (expiryBytes expires ++ rest) ≠
      permissionBytes first ++ (permissionBytes second ++ rest') := by
  intro h
  have hninth := congrArg (·[8]?) h
  cases expires <;> cases first <;> cases second <;> cases hninth

/-- The list of permissions ends where the time begins. -/
theorem permissions_append_inj : ∀ {permissions permissions' : List Permission},
    permissions.length % 256 ^ 4 = permissions'.length % 256 ^ 4 →
    permissions.flatMap permissionBytes ++ (timestampBytes issued ++
      (expiryBytes expires ++ rest)) =
      permissions'.flatMap permissionBytes ++
        (timestampBytes issued' ++ (expiryBytes expires' ++ rest')) →
    permissions = permissions' ∧ timestampBytes issued = timestampBytes issued' ∧
      expiryBytes expires ++ rest = expiryBytes expires' ++ rest'
  | [], [], _, h => ⟨rfl, append_inj h (by simp [timestampBytes])⟩
  | first :: permissions, second :: permissions', hcount, h => by
    rw [flatMap_cons, flatMap_cons, append_assoc, append_assoc] at h
    obtain ⟨rfl, hrest⟩ := permissionBytes_append_inj h
    rw [length_cons, length_cons] at hcount
    obtain ⟨rfl, htail⟩ := permissions_append_inj (by omega) hrest
    exact ⟨rfl, htail⟩
  -- the counts agree modulo `2 ^ 32`: no list has one permission more than the other
  | [], [_], hcount, _ => absurd hcount (by simp)
  | [_], [], hcount, _ => absurd hcount (by simp)
  | [], first :: second :: _, _, h => by
    simp only [flatMap_cons, append_assoc] at h
    exact absurd h (ne_two_permissions first second)
  | first :: second :: _, [], _, h => by
    simp only [flatMap_cons, append_assoc] at h
    exact absurd h.symm (ne_two_permissions first second)

end

namespace CapabilityToken

variable {globs : Globset} (token token' : CapabilityToken globs)

/-- A token as its types bound it, with a pattern of less than `2 ^ 32` bytes. -/
structure Fits : Prop where
  resource : (utf8 token.resource.pattern).length < 2 ^ 32
  issuedAt : InI64 (seconds token.issuedAt)
  expiresAt : ∀ time ∈ token.expiresAt, InI64 (seconds time)
  issuer : token.issuer.length = 32
  userId : token.userId.length = 8

/-- What the signature covers. -/
def signedFields :=
  (token.id, token.resource.pattern, token.permissions, seconds token.issuedAt,
    token.expiresAt.map seconds, token.scope, token.issuer, token.userId, token.approvalAuditId,
    token.singleUse, token.principal)

def payload : Bytes := signingData token.toTokenFields token.resource.pattern

variable {token token'}

theorem signedFields_inj (hfits : token.Fits) (hfits' : token'.Fits)
    (h : token.payload = token'.payload) : token.signedFields = token'.signedFields := by
  have hword : ∀ id : BitVec 128, (beBytes 16 id.toNat).length < 256 ^ 4 := fun id => by
    rw [length_beBytes]
    decide
  have hscope : ∀ scope : TokenScope, (utf8 scope.text).length < 256 ^ 4 := fun scope => by
    cases scope <;> decide
  simp only [payload, signingData, append_assoc] at h
  obtain ⟨hid, h⟩ := lengthPrefixed_append_inj (hword _) (hword _) (cons.inj h).2
  obtain ⟨hresource, h⟩ := lengthPrefixed_append_inj hfits.resource hfits'.resource h
  obtain ⟨hcount, h⟩ := append_inj h (by simp)
  replace hcount := congrArg ofLe hcount
  rw [ofLe_leBytes_mod, ofLe_leBytes_mod] at hcount
  obtain ⟨hpermissions, hissued, h⟩ := permissions_append_inj hcount h
  obtain ⟨hexpires, h⟩ := expiryBytes_append_inj hfits.expiresAt hfits'.expiresAt h
  obtain ⟨hscope, h⟩ := lengthPrefixed_append_inj (hscope _) (hscope _) h
  obtain ⟨hissuer, h⟩ := append_inj h (hfits.issuer.trans hfits'.issuer.symm)
  obtain ⟨huser, h⟩ := append_inj h (hfits.userId.trans hfits'.userId.symm)
  obtain ⟨haudit, h⟩ := lengthPrefixed_append_inj (hword _) (hword _) h
  obtain ⟨hsingle, h⟩ := cons.inj h
  have hprincipal := (append_inj (show leBytes 4 _ ++ _ = leBytes 4 _ ++ _ from h) (by simp)).2
  simp only [signedFields, Prod.mk.injEq]
  refine ⟨BitVec.eq_of_toNat_eq (beBytes_inj token.id.isLt token'.id.isLt hid), utf8_inj hresource,
    hpermissions, timestampBytes_inj hfits.issuedAt hfits'.issuedAt hissued, hexpires, ?_, hissuer,
    huser, BitVec.eq_of_toNat_eq (beBytes_inj token.approvalAuditId.isLt
      token'.approvalAuditId.isLt haudit), ?_, PrincipalId.ext_text (utf8_inj hprincipal)⟩
  · have htext := utf8_inj hscope
    revert htext
    cases token.scope <;> cases token'.scope <;> decide
  · revert hsingle
    cases token.singleUse <;> cases token'.singleUse <;> decide

/-- A signature verifies for no other message than the token that carries it. -/
def Binds (verify : Verify) (token : CapabilityToken globs) : Prop :=
  ∀ key message, verify key message token.signature = true → message = token.payload

/-- The signed bytes determine every field they cover, so a signature on one token fails on
any token that differs from it. -/
theorem signature_pins_fields (hfits : token.Fits) (hfits' : token'.Fits) :
    (token.payload = token'.payload → token.signedFields = token'.signedFields) ∧
      ∀ verify : Verify, Binds verify token → token'.signature = token.signature →
        token.signedFields ≠ token'.signedFields →
        token'.verifySignature verify = .error .invalidSignature := by
  refine ⟨signedFields_inj hfits hfits', fun verify hbinds hsignature hdiffer => ?_⟩
  rw [verifySignature, if_neg]
  intro hverifies
  rw [hsignature] at hverifies
  exact hdiffer (signedFields_inj hfits hfits' (hbinds _ _ hverifies).symm)

/-- A token to read a note, with keys of full width. -/
def keyedToken (scope : TokenScope) : CapabilityToken starGlobs :=
  ⟨{ noteFields scope false with issuer := replicate 32 1, userId := replicate 8 0 }, notePattern⟩

theorem keyedToken_fits (scope : TokenScope) : (keyedToken scope).Fits := by
  cases scope <;> exact ⟨by decide, ⟨by decide, by decide⟩, nofun, rfl, rfl⟩

/-- The signature for a session does not verify for the token that outlives it. -/
theorem session_signature_rejected : (keyedToken .persistent).verifySignature
    (fun _ message _ => message == (keyedToken .session).payload) = .error .invalidSignature :=
  (signature_pins_fields (keyedToken_fits .session) (keyedToken_fits .persistent)).2 _
    (fun _ _ h => eq_of_beq h) rfl (by simp [signedFields, keyedToken, noteFields])

end CapabilityToken

end Astrid.Capability
