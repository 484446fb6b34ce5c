import Tessera.Ledger.Service

/-!
# Registration, login and refresh tokens

Source: `src/src/auth/auth.service.ts`, `tokens.service.ts`, `src/src/users/users.service.ts`.
-/

namespace Tessera

open Transactions Transactions.Program

/-- Source: `RegisterDto`. -/
structure RegisterDto where
  email : String
  displayName : String
  password : String
  deriving DecidableEq

/-- Source: `LoginDto`. -/
structure LoginDto where
  email : String
  password : String
  deriving DecidableEq

/-- Source: `auth.service.ts` `AuthenticatedUser`. -/
structure AuthenticatedUser where
  id : Uuid
  email : String
  displayName : String
  role : String
  deriving DecidableEq

/-- Source: `auth.service.ts` `AuthResult`. -/
structure AuthResult where
  accessToken : String
  refreshToken : String
  expiresIn : ℤ
  user : AuthenticatedUser
  deriving DecidableEq

/-- `{ id, email, displayName, role }` of a row. -/
def User.authenticated (u : User) : AuthenticatedUser := ⟨u.id, u.email.text, u.displayName, u.role⟩

/-- The user with an address; `email` is `citext`, compared without case. -/
def userByEmail (email : Citext) (s : Db) : Option User :=
  s.users.find? fun u => u.email.lower == email.lower

/-- The token row that a query by hash finds. -/
def tokenByHash (hash : String) (s : Db) : Option RefreshToken :=
  s.tokens.find? fun t => t.tokenHash == hash

/-- What `String.prototype.trim` strips: white space, `U+FEFF` included, and line terminators. -/
def isJsSpace (c : Char) : Bool :=
  let n := c.toNat
  (0x9 ≤ n && n ≤ 0xD) || n == 0x20 || n == 0xA0 || n == 0x1680 || (0x2000 ≤ n && n ≤ 0x200A) ||
    n == 0x2028 || n == 0x2029 || n == 0x202F || n == 0x205F || n == 0x3000 || n == 0xFEFF

/-- `String.prototype.trim`. -/
def trim (text : String) : String :=
  String.ofList ((text.toList.dropWhile isJsSpace).reverse.dropWhile isJsSpace).reverse

section
variable (config : Config) (crypto : Crypto)

/-- Source: `TokensService.hashToken`. -/
def hashToken (token : String) : String := crypto.sha256 token

/-- Source: `TokensService.issueRefreshToken` into a given family. -/
def issueIntoFamily (userId familyId : Uuid) : Action String := do
  let jti ← read
  let token := crypto.signRefreshToken userId jti.uuid familyId jti.now config.jwtRefreshTtl
  let x ← read
  insertToken
    { id := x.uuid
      userId := userId
      familyId := familyId
      tokenHash := hashToken crypto token
      expiresAt := x.now + config.jwtRefreshTtl * 1000
      usedAt := none
      revokedAt := none }
  pure token

/-- Source: `TokensService.issueRefreshToken` without a family: a login starts a new one. -/
def issueRefreshToken (userId : Uuid) : Action String := do
  let x ← read
  issueIntoFamily config crypto userId x.uuid

/-- Source: `TokensService.revokeFamily`, one `UPDATE` on whatever executor it is given. -/
def revokeFamily (familyId : Uuid) : Action Unit := do
  let x ← read
  let seen ← select fun s =>
    s.tokens.filter fun t => t.familyId == familyId && t.revokedAt.isNone
  updateEach (fun t => LockKey.token t.id)
    (fun t s => (s.token t.id).filter fun u => u.familyId == familyId && u.revokedAt.isNone)
    (fun t => .updateToken t.id (.revoked x.now)) seen

/-- Source: `AuthService.buildResult`. -/
def buildResult (user : AuthenticatedUser) (refreshToken : String) : Action AuthResult := do
  let x ← read
  pure
    { accessToken := crypto.signAccessToken user.id user.email user.role x.now config.jwtAccessTtl
      refreshToken := refreshToken
      expiresIn := config.jwtAccessTtl
      user := user }

/-- The transaction of `AuthService.register`. -/
def registerTransaction (dto : RegisterDto) (passwordHash : String) (grant : Money) :
    Action AuthResult := do
  let x ← read
  let user : User :=
    { id := x.uuid
      email := crypto.citext dto.email
      displayName := trim dto.displayName
      passwordHash := passwordHash }
  insertUser user
  let walletId ← createWallet user.id
  let _ ← postEnlisted
    { kind := .SIGNUP_GRANT
      reference := some ⟨"user", user.id⟩
      postings := [⟨mintId, grant.negate⟩, ⟨walletId, grant⟩] }
  let refreshToken ← issueRefreshToken config crypto user.id
  buildResult config crypto user.authenticated refreshToken

/-- Source: `AuthService.register`. -/
def register (dto : RegisterDto) : Action AuthResult := do
  match ← select (userByEmail (crypto.citext dto.email)) with
  | some _ => throw .emailAlreadyRegistered
  | none =>
    let x ← read
    let grant ← check (Money.fromMinor config.signupGrantMinor)
    tryCatch
      (transaction (registerTransaction config crypto dto
        (crypto.argon2Hash dto.password x.randomBytes) grant))
      fun e =>
        if e = .uniqueViolation "users_email_key" then throw .emailAlreadyRegistered
        else throw e

/-- Source: `AuthService.login`. -/
def login (dto : LoginDto) : Action AuthResult := do
  match ← select (userByEmail (crypto.citext dto.email)) with
  | none => throw .invalidCredentials
  | some user =>
    if crypto.argon2Verify user.passwordHash dto.password = false then throw .invalidCredentials
    else if user.status = "suspended" then throw .invalidCredentials
    else
      transaction do
        let refreshToken ← issueRefreshToken config crypto user.id
        buildResult config crypto user.authenticated refreshToken

/-- What the transaction of `refresh` returns instead of throwing. -/
inductive RefreshOutcome
  | ok (result : AuthResult)
  | invalid
  | reuse
  deriving DecidableEq

/-- Exchange an unspent token for a successor in its family. -/
def rotateToken (stored : RefreshToken) : Action RefreshOutcome := do
  let x ← read
  let _ ← updateRow (fun t : RefreshToken => LockKey.token t.id) (fun s => s.token stored.id)
    fun t => .updateToken t.id (.used x.now)
  match ← select fun s => s.user stored.userId with
  | none => pure .invalid
  | some user =>
    if user.status = "suspended" then pure .invalid
    else do
      let refreshToken ← issueIntoFamily config crypto user.id stored.familyId
      let result ← buildResult config crypto user.authenticated refreshToken
      pure (.ok result)

/-- The transaction of `AuthService.refresh`. -/
def refreshTransaction (tokenHash : String) : Action RefreshOutcome := do
  match ← selectForLock .exclusive (fun t : RefreshToken => LockKey.token t.id)
      (tokenByHash tokenHash) with
  | none => pure .invalid
  | some stored =>
    if stored.revokedAt.isSome then pure .invalid
    else do
      let x ← read
      if stored.expiresAt ≤ x.now then pure .invalid
      else if stored.usedAt.isSome then do
        revokeFamily stored.familyId
        pure .reuse
      else rotateToken config crypto stored

/-- Source: `AuthService.refresh`. -/
def refresh (rawToken : String) : Action AuthResult := do
  let x ← read
  if crypto.verifyRefreshToken rawToken x.now = false then throw .invalidRefreshToken
  else do
    match ← transaction (refreshTransaction config crypto (hashToken crypto rawToken)) with
    | .reuse => throw .refreshTokenReuse
    | .invalid => throw .invalidRefreshToken
    | .ok result => pure result

/-- Source: `AuthService.logout`. -/
def logout (rawToken : String) : Action Unit := do
  match ← select (tokenByHash (hashToken crypto rawToken)) with
  | none => pure ()
  | some stored => autocommit (revokeFamily stored.familyId)

end

end Tessera
