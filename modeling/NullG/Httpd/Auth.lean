/-
Who a request is from (`httpd_auth.c`).

The fields that name a user are set as the rows of the database are read, before the last of the checks. So a login that
fails leaves nobody just where it has failed before a row of a user was read.
-/

import NullG.Httpd.Query

namespace NullG.Httpd

open NullG.Nsp NullG.Mail

/-- A number that is stored in a `short int`. -/
def short (n : Int) : Int := n.bmod (2 ^ 16)

/-! ### The database -/

/-- A row of `gw_users`. -/
structure UserRow where
  userid : List Byte
  objUid : List Byte
  objGid : List Byte
  objDid : List Byte
  username : List Byte
  password : List Byte
  deriving DecidableEq

/-- A row of `gw_users_sessions`. -/
structure SessionRow where
  objUid : List Byte
  objDid : List Byte

/-- What the database answers: the rows of a query, or `none` where it fails. A result has a table of rows in every
driver. -/
structure Sql where
  /-- `SELECT * FROM gw_users_sessions WHERE token = ... AND remoteip = ...` -/
  sessions : List Byte → List Byte → Option (List SessionRow)
  /-- `SELECT * FROM gw_users WHERE userid = ...` -/
  userById : Int → Option (List UserRow)
  /-- `SELECT * FROM gw_users WHERE username = ... AND obj_did = ... AND enabled = 1` -/
  userByName : List Byte → Int → Option (List UserRow)
  /-- `SELECT domainid FROM gw_domains WHERE LOWER(domainname) = ...` -/
  domains : List Byte → Option (List (List Byte))
  /-- `SELECT domainid FROM gw_domains_aliases WHERE LOWER(domainname) = ...` -/
  aliases : List Byte → Option (List (List Byte))
  /-- `SELECT domainname FROM gw_domains WHERE domainid = ...` -/
  domainName : Int → Option (List (List Byte))
  /-- whether `SELECT sessionid FROM gw_users_sessions WHERE obj_uid = ... AND obj_did = ...` succeeds -/
  sessionids : Int → Int → Bool

/-- `domain_getid`. `printf` writes a name that is missing as `(null)`. -/
def domainGetid (sql : Sql) (domainname : Option (List Byte)) : Int :=
  let name := domainname.getD (bytes "(null)")
  match sql.domains name with
  | none => -1
  | some rows =>
      let domainid := (rows.head?.map atoi).getD (-1)
      if domainid > 0 then domainid
      else
        match sql.aliases name with
        | none => -1
        | some rows => (rows.head?.map atoi).getD domainid

/-- `ldir_getentry(conn->N, "user", NULL, id, did)`: there is one row. -/
def ldirGetentry (sql : Sql) (id : Int) : Option UserRow :=
  match sql.userById id with
  | some [user] => some user
  | _ => none

/-! ### A request -/

/-- What a request brings, and what it finds. The database may be another one at each of the three times that it is
asked: `auth_setcookie` changes it, and so do other connections. -/
structure Env where
  md5 : List Byte → List Byte
  md5Crypt : List Byte → List Byte → List Byte
  remoteAddr : List Byte
  serverName : List Byte
  now : List Byte
  isPost : Bool
  /-- the cookie `gstoken` -/
  gstoken : List Byte
  getenv : List Byte → Option (List Byte)
  postenv : List Byte → Option (List Byte)
  /-- `getxmlparam(conn, param, "string")` -/
  xmlparam : Nat → Option (List Byte)
  atCookie : Sql
  atLogin : Sql
  atRenew : Sql

/-- What is known of the user: fields of `conn->dat`, and `REMOTE_USER` and `_USER` of the scripts. -/
structure User where
  username : List Byte := []
  token : List Byte := []
  domainname : List Byte := []
  uid : Int := 0
  gid : Int := 0
  did : Int := 0
  remoteUser : List Byte := bytes "nobody"
  user : Option UserRow := none
  deriving DecidableEq

/-- The user of a connection on which nobody has logged in. -/
structure Anonymous (dat : User) : Prop where
  uid : dat.uid = 0
  gid : dat.gid = 0
  remoteUser : dat.remoteUser = bytes "nobody"
  user : dat.user = none

/-- The row of `gw_users` that a login names. -/
def loginRow (env : Env) (password : List Byte) (dat : User) : Option UserRow :=
  if dat.username = [] ∨ password = [] then none
  else
    match env.atLogin.userByName dat.username dat.did with
    | some [row] => some row
    | _ => none

/-- The password of a row is the one that was given. -/
def passwordFits (env : Env) (row : UserRow) (password : List Byte) : Bool :=
  let cpassword := row.password.take 63
  let salt := (cpassword.drop 3).take 8
  cpassword.take 3 == bytes "$1$" && cpassword == env.md5Crypt password salt

/-- `auth_checkpass`: whether it returns 0. -/
def checkpass (env : Env) (password : List Byte) (dat : User) : Bool × User :=
  match loginRow env password dat with
  | none => (false, dat)
  | some row => (passwordFits env row password, { dat with uid := short (atoi row.userid) })

/-- The user whose session has a token. -/
def sessionUser (env : Env) (sql : Sql) (token : List Byte) : Option UserRow :=
  match sql.sessions token env.remoteAddr with
  | some [session] =>
      let userid := atoi session.objUid
      let domainid := atoi session.objDid
      if userid = 0 ∨ domainid = 0 then none else ldirGetentry sql userid
  | _ => none

/-- What `auth_renewcookie` makes of the row of a user. -/
def User.renew (dat : User) (row : UserRow) : User :=
  let username := snprintf 63 row.username
  { dat with
    uid := short (atoi row.objUid)
    gid := short (atoi row.objGid)
    did := short (atoi row.objDid)
    username := username
    remoteUser := username
    user := some row }

/-- The row that `auth_renewcookie` gets to. -/
def renewRow (env : Env) (sql : Sql) (settoken : Bool) (token : List Byte) : Option UserRow :=
  if settoken ∧ token.length ≠ 32 then none else sessionUser env sql token

/-- `auth_renewcookie`: whether it returns 0. -/
def renewcookie (env : Env) (sql : Sql) (settoken : Bool) (dat : User) : Bool × User :=
  match renewRow env sql settoken dat.token with
  | none => (false, dat)
  | some row => (!(dat.renew row).username.isEmpty, dat.renew row)

/-- `auth_getcookie`. -/
def getcookie (env : Env) (dat : User) : Bool × User :=
  renewcookie env env.atCookie true { dat with token := snprintf 63 env.gstoken }

/-- The fields of a login: the user with the name and the domain, the password, and whether a field came as XML. -/
def loginFields (env : Env) (dat : User) : User × List Byte × Bool :=
  if env.isPost = false then
    ({ dat with username := ((env.getenv (bytes "USERNAME")).map (List.take 63)).getD dat.username },
      ((env.getenv (bytes "PASSWORD")).map (List.take 63)).getD [], false)
  else
    let field := fun n name => (env.xmlparam n).or (env.postenv (bytes name))
    let password := ((field 2 "PASSWORD").map (List.take 63)).getD []
    match field 1 "USERNAME" with
    | none => (dat, password, (env.xmlparam 2).isSome)
    | some name =>
        let name := name.take 63
        let username := name.takeWhile (· != ch '@')
        if name.contains (ch '@') then
          let domain := (name.dropWhile (· != ch '@')).drop 1
          ({ dat with username := username, did := short (domainGetid env.atLogin (some domain)) }, password,
            (env.xmlparam 1).isSome || (env.xmlparam 2).isSome)
        else
          ({ dat with username := username, did := short (domainGetid env.atLogin (field 3 "DOMAIN")) }, password,
            (env.xmlparam 1).isSome || (env.xmlparam 2).isSome || (env.xmlparam 3).isSome)

/-- The domain of a login, in which the password is checked. -/
def withDomain (env : Env) (dat : User) : User :=
  let did := if dat.did < 1 then 1 else dat.did
  let name :=
    match env.atLogin.domainName did with
    | some (name :: _) => name.take 62
    | _ => bytes "NULL"
  { dat with did := did, domainname := name.take 63 }

/-- `%02x` of bytes. -/
def hexText (md : List Byte) : List Byte :=
  md.flatMap fun c => [c / 16, c % 16].map fun n => if n < 10 then n + ch '0' else n + (ch 'a' - 10)

/-- The token of a session that begins. -/
def newToken (env : Env) (username : List Byte) : List Byte :=
  hexText (env.md5 (if username = bytes "guest" then username else username ++ env.now))

/-- A session begins: the rest of `auth_setcookie`. -/
def beginSession (env : Env) (xml : Bool) (dat : User) : Bool × User :=
  let dat := { dat with token := newToken env dat.username }
  if xml then renewcookie env env.atRenew false dat
  else if env.atLogin.sessionids dat.uid dat.did then renewcookie env env.atRenew true dat
  else (false, dat)

/-- `auth_setcookie`. -/
def setcookie (env : Env) (dat : User) : Bool × User :=
  let (dat, password, xml) := loginFields env dat
  match checkpass env password (withDomain env dat) with
  | (false, dat) => (false, { dat with did := short (domainGetid env.atLogin (some env.serverName)) })
  | (true, dat) => beginSession env xml dat

/-- What `http_dorequest` makes of a request: whether it is authenticated. -/
def authenticate (env : Env) : Bool × User :=
  match getcookie env {} with
  | (true, dat) => (true, dat)
  | (false, dat) => setcookie env dat

/-! ### Where a login fails -/

/-- A connection whose cookie was read. -/
def cookieRead (env : Env) : User := { token := snprintf 63 env.gstoken }

/-- The row that a session gets to which begins with a login. -/
def sessionRow (env : Env) (xml : Bool) (dat : User) : Option UserRow :=
  if xml then renewRow env env.atRenew false (newToken env dat.username)
  else if env.atLogin.sessionids dat.uid dat.did then renewRow env env.atRenew true (newToken env dat.username)
  else none

/-- The user that a login finds, with its number. -/
def loggedIn (env : Env) (row : UserRow) : User :=
  { withDomain env (loginFields env (cookieRead env)).1 with uid := short (atoi row.userid) }

/-- A request that fails before a row of a user was read (or where the row has the number of nobody). -/
structure Nameless (env : Env) : Prop where
  /-- the cookie is not the token of a session of a user -/
  cookie : renewRow env env.atCookie true (snprintf 63 env.gstoken) = none
  /-- there is no user with the name of the login -/
  login : ∀ row, loginRow env (loginFields env (cookieRead env)).2.1
    (withDomain env (loginFields env (cookieRead env)).1) = some row → short (atoi row.userid) = 0 ∧
      (passwordFits env row (loginFields env (cookieRead env)).2.1 = true →
        sessionRow env (loginFields env (cookieRead env)).2.2 (loggedIn env row) = none)

section

variable {env : Env} {sql : Sql} {settoken xml : Bool} {dat : User} {password : List Byte}

/-- A renewal that fails has left everything as it was, or the name of a user who has none. -/
theorem renewcookie_failed (h : (renewcookie env sql settoken dat).1 = false) :
    (renewRow env sql settoken dat.token = none ∧ (renewcookie env sql settoken dat).2 = dat) ∨
      (∃ row, renewRow env sql settoken dat.token = some row) ∧
        (renewcookie env sql settoken dat).2.remoteUser = [] := by
  unfold renewcookie at h ⊢
  cases hrow : renewRow env sql settoken dat.token with
  | none => exact .inl ⟨rfl, rfl⟩
  | some row =>
      rw [hrow] at h
      simp only [Bool.not_eq_false', List.isEmpty_iff] at h
      exact .inr ⟨⟨row, rfl⟩, h⟩

theorem beginSession_failed (h : (beginSession env xml dat).1 = false) :
    (sessionRow env xml dat = none ∧
        (beginSession env xml dat).2 = { dat with token := newToken env dat.username }) ∨
      (∃ row, sessionRow env xml dat = some row) ∧ (beginSession env xml dat).2.remoteUser = [] := by
  unfold beginSession sessionRow at *
  dsimp only at h ⊢
  split at h
  · rename_i hxml
    simp only [if_pos hxml]
    exact renewcookie_failed h
  · rename_i hxml
    simp only [if_neg hxml]
    split at h
    · rename_i hlist
      simp only [if_pos hlist]
      exact renewcookie_failed h
    · rename_i hlist
      simp only [if_neg hlist]
      exact .inl ⟨trivial, trivial⟩

theorem loginFields_same (env : Env) (dat : User) : (loginFields env dat).1.uid = dat.uid ∧
    (loginFields env dat).1.gid = dat.gid ∧ (loginFields env dat).1.remoteUser = dat.remoteUser ∧
    (loginFields env dat).1.user = dat.user := by
  unfold loginFields
  split
  · exact ⟨rfl, rfl, rfl, rfl⟩
  · dsimp only
    split
    · exact ⟨rfl, rfl, rfl, rfl⟩
    · split
      · exact ⟨rfl, rfl, rfl, rfl⟩
      · exact ⟨rfl, rfl, rfl, rfl⟩

/-- What a login that fails has changed of what is known of the user. -/
theorem setcookie_failed (h : (setcookie env dat).1 = false) :
    let fields := loginFields env dat
    let login := withDomain env fields.1
    match loginRow env fields.2.1 login with
    | none => (setcookie env dat).2.uid = dat.uid ∧ (setcookie env dat).2.gid = dat.gid ∧
        (setcookie env dat).2.remoteUser = dat.remoteUser ∧ (setcookie env dat).2.user = dat.user
    | some row =>
        ((passwordFits env row fields.2.1 = true →
            sessionRow env fields.2.2 { login with uid := short (atoi row.userid) } = none) ∧
          (setcookie env dat).2.uid = short (atoi row.userid) ∧ (setcookie env dat).2.gid = dat.gid ∧
          (setcookie env dat).2.remoteUser = dat.remoteUser ∧ (setcookie env dat).2.user = dat.user) ∨
        (passwordFits env row fields.2.1 = true ∧
          ∃ row', sessionRow env fields.2.2 { login with uid := short (atoi row.userid) } = some row') ∧
          (setcookie env dat).2.remoteUser = [] := by
  obtain ⟨huid, hgid, hremote, huser⟩ := loginFields_same env dat
  unfold setcookie checkpass at *
  generalize loginFields env dat = fields at *
  obtain ⟨login, password, xml⟩ := fields
  dsimp only at *
  cases hrow : loginRow env password (withDomain env login) with
  | none => exact ⟨huid, hgid, hremote, huser⟩
  | some row =>
      rw [hrow] at h
      dsimp only at h ⊢
      cases hfits : passwordFits env row password with
      | false => exact .inl ⟨fun hfalse => absurd hfalse Bool.false_ne_true, rfl, hgid, hremote, huser⟩
      | true =>
          rw [hfits] at h
          dsimp only at h ⊢
          rcases beginSession_failed h with ⟨hnone, hsame⟩ | ⟨hsome, hnobody⟩
          · rw [hsame]
            exact .inl ⟨fun _ => hnone, rfl, hgid, hremote, huser⟩
          · exact .inr ⟨⟨rfl, hsome⟩, hnobody⟩

theorem setcookie_remoteUser (h : (setcookie env dat).1 = false) :
    (setcookie env dat).2.remoteUser = dat.remoteUser ∨ (setcookie env dat).2.remoteUser = [] := by
  have hfailed := setcookie_failed h
  dsimp only at hfailed
  split at hfailed
  · exact .inl hfailed.2.2.1
  · rcases hfailed with ⟨-, -, -, hremote, -⟩ | ⟨-, hnobody⟩
    · exact .inl hremote
    · exact .inr hnobody

/-- A request that is not authenticated leaves nobody just where no row of a user was read. -/
theorem anonymous_iff (h : (authenticate env).1 = false) : Anonymous (authenticate env).2 ↔ Nameless env := by
  have hname : bytes "nobody" ≠ [] := by decide
  unfold authenticate at h ⊢
  cases hcookie : getcookie env {} with
  | mk authenticated dat =>
      cases authenticated with
      | true =>
          rw [hcookie] at h
          cases h
      | false =>
          rw [hcookie] at h
          dsimp only at h ⊢
          have hrenew := @renewcookie_failed env env.atCookie true (cookieRead env)
          have hread : renewcookie env env.atCookie true (cookieRead env) = (false, dat) := hcookie
          rw [hread] at hrenew
          rcases hrenew rfl with ⟨hnone, hsame⟩ | ⟨⟨row, hsome⟩, hempty⟩
          · dsimp only at hsame
            rw [hsame] at h ⊢
            have hfailed := setcookie_failed h
            dsimp only at hfailed
            constructor
            · intro hanonymous
              refine ⟨hnone, fun row hrow => ?_⟩
              rw [hrow] at hfailed
              rcases hfailed with ⟨hsession, huid, -⟩ | ⟨-, hnobody⟩
              · exact ⟨huid.symm.trans hanonymous.uid, hsession⟩
              · exact absurd (hanonymous.remoteUser.symm.trans hnobody) hname
            · intro hnameless
              split at hfailed
              · exact ⟨hfailed.1, hfailed.2.1, hfailed.2.2.1, hfailed.2.2.2⟩
              · rename_i row hrow
                obtain ⟨hzero, hsession⟩ := hnameless.login row hrow
                rcases hfailed with ⟨-, huid, hgid, hremote, huser⟩ | ⟨⟨hfits, row', hsome⟩, -⟩
                · exact ⟨huid.trans hzero, hgid, hremote, huser⟩
                · exact absurd (hsome.symm.trans (hsession hfits)) (Option.some_ne_none row')
          · constructor
            · intro hanonymous
              rcases setcookie_remoteUser h with hremote | hremote
              · exact absurd (hanonymous.remoteUser.symm.trans (hremote.trans hempty)) hname
              · exact absurd (hanonymous.remoteUser.symm.trans hremote) hname
            · intro hnameless
              exact absurd (hsome.symm.trans hnameless.cookie) (Option.some_ne_none row)

/-- The database of a site with one user, who has no session. -/
def oneUser (row : UserRow) : Sql where
  sessions _ _ := some []
  userById _ := some [row]
  userByName name _ := some (if name = row.username then [row] else [])
  domains _ := some []
  aliases _ := some []
  domainName _ := some []
  sessionids _ _ := true

/-- A login with `GET`. -/
def loginEnv (row : UserRow) (username password : String) : Env where
  md5 _ := List.replicate 16 0
  md5Crypt password salt := bytes "$1$" ++ salt ++ bytes "$" ++ password
  remoteAddr := bytes "10.0.0.1"
  serverName := bytes "localhost"
  now := bytes "2023-01-01 00:00:00"
  isPost := false
  gstoken := []
  getenv name :=
    if name = bytes "USERNAME" then some (bytes username)
    else if name = bytes "PASSWORD" then some (bytes password)
    else none
  postenv _ := none
  xmlparam _ := none
  atCookie := oneUser row
  atLogin := oneUser row
  atRenew := oneUser row

/-- The user with the number 7. -/
def adminRow : UserRow :=
  ⟨bytes "7", bytes "7", bytes "1", bytes "1", bytes "admin", bytes "$1$abcdefgh$secret"⟩

theorem anonymous_unknown :
    Anonymous (authenticate (loginEnv adminRow "root" "x")).2 ↔ Nameless (loginEnv adminRow "root" "x") :=
  anonymous_iff (by decide +kernel)

/-- The user whose password was not known is the user of the request. -/
theorem notAnonymous : (authenticate (loginEnv adminRow "admin" "x")).1 = false ∧
    ¬ Anonymous (authenticate (loginEnv adminRow "admin" "x")).2 := by
  have huid : (authenticate (loginEnv adminRow "admin" "x")).2.uid = 7 := by decide +kernel
  refine ⟨by decide +kernel, fun hanonymous => ?_⟩
  rw [hanonymous.uid] at huid
  cases huid

end

end NullG.Httpd
