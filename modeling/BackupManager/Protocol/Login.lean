import BackupManager.ByteStream.Field
import BackupManager.Server.Isolation

/-! The two ends of `login`: what each does from one point at which it may wait to the next, and the
bytes that are under way between them. -/
namespace BackupManager.Protocol.Login
open ByteStream Server Table Transition Prog

/-- A length in its fixed width, and the line it announces. -/
def textBytes (text : Bytes) : Bytes := field intMaxNDigit text.length ++ text ++ [newline]

/-- `os << flag << "\n"`. -/
def flagBytes (flag : ℤ) : Bytes := showInt flag ++ [newline]

section Reading

variable {σ : Type}

/-- A password: `length` and `old` are what the variables held. -/
def recvText (length : ℤ) (old : Bytes) : Prog σ (ℤ × Bytes) := do
  let length ← recvInt intMaxNDigit length
  let text ← recvLine (sizeOfInt (intSucc length)) old
  pure (length, text)

/-- The username is taken as a word. -/
def recvUsername (length : ℤ) : Prog σ (ℤ × Bytes) := do
  let length ← recvInt intMaxNDigit length
  read (sizeOfInt (intSucc length))
  let username ← getWord []
  pure (length, username)

end Reading

/-- Where the server's `login` waits; `length` and `password` are its variables. -/
inductive ServerAt where
  | connected
  | signingUp (username : Bytes) (length : ℤ)
  | checking (username actualPassword : Bytes) (length : ℤ) (password : Bytes)
  /-- `login` has returned, and `send_file_hash` is next. -/
  | entered (username : Bytes)
  | failed
  deriving DecidableEq, Repr

/-- Where the client's `login` waits. -/
inductive ClientAt where
  | connected
  | awaitingSignedUp
  /-- In the loop of `create_account_password`. -/
  | creating
  | prompting
  | awaitingAnswer
  | loggedIn
  | failed
  deriving DecidableEq, Repr

/-- How the calls of SQLite end in a session, and what an uninitialised `int` holds. -/
structure Env where
  lookup : Lookup
  codes : SignUpCodes
  uninit : ℤ

/-- `ClientHandler::login`, with the messages that it writes. -/
def server (env : Env) : ServerAt → Prog (Table.Connection Db) (ServerAt × List Bytes)
  | .connected => do
    let (length, username) ← recvUsername env.uninit
    let c ← getWorld
    match env.lookup.password c.current.users username with
    | .error what => throw what
    | .ok (some actualPassword) =>
      pure (.checking username actualPassword length [], [flagBytes 1])
    | .ok none => pure (.signingUp username length, [flagBytes 0])
  | .signingUp username length => do
    let (length, password) ← recvText length []
    act "SQLITE error" (createNewUser env.codes username password)
    pure (.checking username password length password, [])
  | .checking username actualPassword length password => do
    let (length, password) ← recvText length password
    if actualPassword = password then pure (.entered username, [flagBytes 1])
    else pure (.checking username actualPassword length password, [flagBytes 0])
  | .entered _ | .failed => fun s => (.waits, s)

/-- `std::getline(std::cin, password)`; the world is what the user is going to enter. -/
def enterLine : Prog (List Bytes) Bytes := fun s =>
  match s.world with
  | [] => (.waits, s)
  | line :: lines => (.returns line, { s with world := lines })

/-- `Client::login` and `create_account_password`, with the messages that they write. -/
def client (name : Bytes) : ClientAt → Prog (List Bytes) (ClientAt × List Bytes)
  | .connected => pure (.awaitingSignedUp, [textBytes name])
  | .awaitingSignedUp => do
    let isSignedup ← recvInt 1 0
    pure (if isSignedup = 0 then .creating else .prompting, [])
  | .creating => do
    let password ← enterLine
    let passwordConfirmed ← enterLine
    if password ≠ passwordConfirmed then pure (.creating, [])
    else pure (.prompting, [textBytes password])
  | .prompting => do
    let password ← enterLine
    pure (.awaitingAnswer, [textBytes password])
  | .awaitingAnswer => do
    let isAuthenticated ← recvInt 1 0
    pure (if isAuthenticated = 0 then .prompting else .loggedIn, [])
  | .loggedIn | .failed => fun s => (.waits, s)

/-- An end of the connection: where it is, and the messages that it has written. -/
structure Party (σ P : Type) where
  point : P
  session : Session σ
  sent : List Bytes

namespace Party

variable {σ P : Type}

/-- What the other end has written is under way to this one. -/
def receive (p : Party σ P) (messages : List Bytes) : Party σ P :=
  { p with session := { p.session with wire := p.session.wire ++ messages.flatten } }

/-- The other end has closed the socket. -/
def hangUp (p : Party σ P) : Party σ P := { p with session := { p.session with closed := true } }

end Party

inductive Side where
  | client
  | server
  deriving DecidableEq, Repr

structure Dialogue where
  client : Party (List Bytes) ClientAt
  server : Party (Table.Connection Db) ServerAt

/-- One end goes on to where it waits next, unless what it waits for has not arrived. An exception
leaves `login`, and its end closes the socket. -/
def step (env : Env) (name : Bytes) (s : Dialogue) : Side → Option Dialogue
  | .client =>
    match client name s.client.point s.client.session with
    | (.returns (point, messages), session) =>
      some ⟨⟨point, session, s.client.sent ++ messages⟩, s.server.receive messages⟩
    | (.throws _, session) => some ⟨⟨.failed, session, s.client.sent⟩, s.server.hangUp⟩
    | (.waits, _) => none
  | .server =>
    match server env s.server.point s.server.session with
    | (.returns (point, messages), session) =>
      some ⟨s.client.receive messages, ⟨point, session, s.server.sent ++ messages⟩⟩
    | (.throws _, session) => some ⟨s.client.hangUp, ⟨.failed, session, s.server.sent⟩⟩
    | (.waits, _) => none

/-- A connection has been accepted; the user is going to enter these lines. -/
def start (c : Table.Connection Db) (lines : List Bytes) : Dialogue :=
  ⟨⟨.connected, ⟨[], false, .fresh [], lines⟩, []⟩, ⟨.connected, ⟨[], false, .fresh [], c⟩, []⟩⟩

/-- What is under way are the last of these messages, and nothing but blanks has been left unread. -/
def Aligned {σ : Type} (session : Session σ) (sent : List Bytes) : Prop :=
  (∃ messages, messages <:+ sent ∧ session.wire = messages.flatten) ∧
    ∃ residue, Blank residue ∧ session.stream = .fresh residue

/-- A login: the session of a sign-up, or a later one. The lines are what the user enters, a `string`
having less than `2 ^ 63` bytes. -/
structure Exchange where
  env : Env
  db : Db
  name : Bytes
  password : Bytes
  signedUp : Bool
  /-- New passwords whose confirmation was another one. -/
  retries : List (Bytes × Bytes)
  attempts : List Bytes
  name_ne : name ≠ []
  word : ∀ b ∈ name, isSpace b = false
  lines : ∀ text ∈ password :: attempts, newline ∉ text
  differ : ∀ r ∈ retries, r.1 ≠ r.2
  short : ∀ text ∈ name :: password :: attempts, text.length < 2 ^ 63
  /-- The password in the row of the user. -/
  registered : (selectPassword db.users name).head? = if signedUp then some password else none

namespace Exchange

variable (l : Exchange)

/-- What the user enters. -/
def entered : List Bytes :=
  if l.signedUp then l.attempts
  else (l.retries.flatMap fun r => [r.1, r.2]) ++ l.password :: l.password :: l.attempts

def begin : Dialogue := start ⟨l.db, none⟩ l.entered

abbrev run (sides : List Side) : Option Dialogue :=
  Transition.run (step l.env l.name) l.begin sides

/-- One answer for each attempt up to the first that is the registered password. -/
def verdicts (password : Bytes) : List Bytes → List ℤ
  | [] => []
  | attempt :: rest => if attempt = password then [1] else 0 :: verdicts password rest

/-- What the server has to write. -/
def replies : List Bytes :=
  flagBytes (if l.signedUp then 1 else 0) :: (verdicts l.password l.attempts).map flagBytes

/-- The exchange is aligned and goes on, the server has answered with the right verdicts so far, and
past the login is only who has given the password. -/
structure Exact (s : Dialogue) : Prop where
  running : s.client.point ≠ .failed ∧ s.server.point ≠ .failed
  alignedClient : Aligned s.client.session s.server.sent
  alignedServer : Aligned s.server.session s.client.sent
  clientReads : s.client.session.wire ≠ [] → (step l.env l.name s .client).isSome = true
  serverReads : s.server.session.wire ≠ [] → (step l.env l.name s .server).isSome = true
  awaited : s.client.point = .awaitingSignedUp ∨ s.client.point = .awaitingAnswer →
    s.client.session.wire ≠ [] ∨ s.server.session.wire ≠ []
  replies : s.server.sent <+: l.replies
  serverEntered : ∀ username, s.server.point = .entered username →
    username = l.name ∧ s.server.sent = l.replies ∧ l.password ∈ l.attempts
  clientEntered : s.client.point = .loggedIn → ∃ username, s.server.point = .entered username

/-- The password that the server compares with. -/
def actual : Bytes := if l.signedUp then cString l.password else l.password

/-- Every attempt up to the password can be announced in an `int`, and it is the password if and only
if the server takes it for the password. -/
def Tells (password actual : Bytes) : List Bytes → Prop
  | [] => True
  | attempt :: rest => attempt.length < Istream.intMax ∧ (attempt = actual ↔ attempt = password) ∧
      (attempt ≠ password → Tells password actual rest)

instance Tells.decidable (password actual : Bytes) :
    ∀ attempts, Decidable (Tells password actual attempts)
  | [] => .isTrue trivial
  | attempt :: rest =>
    have : Decidable (Tells password actual rest) := Tells.decidable password actual rest
    inferInstanceAs (Decidable ((attempt.length : ℤ) < Istream.intMax ∧
      (attempt = actual ↔ attempt = password) ∧ (attempt ≠ password → Tells password actual rest)))

/-- When the exchange is exact. -/
structure Sound : Prop where
  name : l.name.length < Istream.intMax
  lookup : l.env.lookup.password l.db.users l.name =
    .ok (if l.signedUp then some (cString l.password) else none)
  signUp : l.signedUp = false → l.password.length < Istream.intMax ∧
    (createNewUser l.env.codes l.name l.password ⟨l.db, none⟩).1 = true
  attempts : Tells l.password l.actual l.attempts

end Exchange

end BackupManager.Protocol.Login
