import BackupManager.Protocol.LoginSteps

/-! The password that is accepted is the registered one, as long as the C string that a later session
compares with is the password. -/
namespace BackupManager.Protocol.Login
open ByteStream Server Table Transition Prog
namespace Exchange

variable (l : Exchange)

/-- What the ends hold while they talk about passwords. -/
structure Memory where
  clientSent : List Bytes
  clientResidue : Bytes
  connection : Table.Connection Db
  length : ℤ
  password : Bytes
  serverResidue : Bytes
  clientBlank : Blank clientResidue
  serverBlank : Blank serverResidue

/-- A state of the exchange in which neither end has closed the socket. -/
def talk (client : ClientAt) (clientWire clientResidue : Bytes) (lines clientSent : List Bytes)
    (server : ServerAt) (serverWire serverResidue : Bytes) (c : Table.Connection Db)
    (serverSent : List Bytes) : Dialogue :=
  ⟨⟨client, ⟨clientWire, false, .fresh clientResidue, lines⟩, clientSent⟩,
    ⟨server, ⟨serverWire, false, .fresh serverResidue, c⟩, serverSent⟩⟩

/-- The name is under way. -/
def named : Dialogue :=
  talk .awaitingSignedUp [] [] l.entered [textBytes l.name]
    .connected (textBytes l.name) [] ⟨l.db, none⟩ []

/-- The server wants a password for a new user. -/
def unknown : Dialogue :=
  talk .awaitingSignedUp (flagBytes 0) [] l.entered [textBytes l.name]
    (.signingUp l.name l.name.length) [] [newline] ⟨l.db, none⟩ [flagBytes 0]

/-- The user is asked for a new password, and is still going to enter these with another confirmation. -/
def creating (retries : List (Bytes × Bytes)) : Dialogue :=
  talk .creating [] [newline]
    ((retries.flatMap fun r => [r.1, r.2]) ++ l.password :: l.password :: l.attempts) [textBytes l.name]
    (.signingUp l.name l.name.length) [] [newline] ⟨l.db, none⟩ [flagBytes 0]

/-- The new password is under way, and perhaps an attempt after it. -/
def created (client : ClientAt) (attempt rest : List Bytes) : Dialogue :=
  talk client [] [newline] rest (textBytes l.name :: textBytes l.password :: attempt.map textBytes)
    (.signingUp l.name l.name.length) (textBytes l.password ++ (attempt.map textBytes).flatten) [newline]
    ⟨l.db, none⟩ [flagBytes 0]

/-- The server knows the user. -/
def known : Dialogue :=
  talk .awaitingSignedUp (flagBytes 1) [] l.entered [textBytes l.name]
    (.checking l.name l.actual l.name.length []) [] [newline] ⟨l.db, none⟩ [flagBytes 1]

/-- The server has told whether it knows the user, and has refused these attempts. -/
def refusals (before : List Bytes) : List Bytes :=
  flagBytes (if l.signedUp then 1 else 0) :: before.map fun _ => flagBytes 0

/-- Attempts have been refused, and nothing is under way but, perhaps, one message. -/
def asking (client : ClientAt) (m : Memory) (toClient toServer : List Bytes)
    (before rest : List Bytes) : Dialogue :=
  talk client toClient.flatten m.clientResidue rest m.clientSent
    (.checking l.name l.actual m.length m.password) toServer.flatten m.serverResidue m.connection
    (l.refusals before)

/-- The password has been accepted. -/
def accepted (client : ClientAt) (m : Memory) (toClient before rest : List Bytes) : Dialogue :=
  talk client toClient.flatten m.clientResidue rest m.clientSent
    (.entered l.name) [] m.serverResidue m.connection (l.refusals before ++ [flagBytes 1])

/-- The states of an exchange. -/
inductive Stage : Dialogue → Prop where
  | begin : Stage l.begin
  | named : Stage l.named
  | unknown (hnew : l.signedUp = false) : Stage l.unknown
  | creating (hnew : l.signedUp = false) (retries : List (Bytes × Bytes))
      (hretries : retries <:+ l.retries) : Stage (l.creating retries)
  | created (hnew : l.signedUp = false) : Stage (l.created .prompting [] l.attempts)
  | ahead (hnew : l.signedUp = false) (attempt : Bytes) (rest : List Bytes)
      (hattempts : l.attempts = attempt :: rest) : Stage (l.created .awaitingAnswer [attempt] rest)
  | known (hold : l.signedUp = true) : Stage l.known
  | prompting (m : Memory) (before rest : List Bytes) (hattempts : l.attempts = before ++ rest)
      (hbefore : l.password ∉ before) : Stage (l.asking .prompting m [] [] before rest)
  | attempted (m : Memory) (before : List Bytes) (attempt : Bytes) (rest : List Bytes)
      (hattempts : l.attempts = before ++ attempt :: rest) (hbefore : l.password ∉ before)
      (hsent : [textBytes attempt] <:+ m.clientSent) :
      Stage (l.asking .awaitingAnswer m [] [textBytes attempt] before rest)
  | refused (m : Memory) (before : List Bytes) (attempt : Bytes) (rest : List Bytes)
      (hattempts : l.attempts = before ++ attempt :: rest) (hbefore : l.password ∉ before)
      (hne : attempt ≠ l.password) :
      Stage (l.asking .awaitingAnswer m [flagBytes 0] [] (before ++ [attempt]) rest)
  | accepted (m : Memory) (before rest : List Bytes)
      (hattempts : l.attempts = before ++ l.password :: rest) (hbefore : l.password ∉ before) :
      Stage (l.accepted .awaitingAnswer m [flagBytes 1] before rest)
  | loggedIn (m : Memory) (before rest : List Bytes)
      (hattempts : l.attempts = before ++ l.password :: rest) (hbefore : l.password ∉ before) :
      Stage (l.accepted .loggedIn m [] before rest)

section Steps

variable {l : Exchange} {m : Memory} {before rest : List Bytes} {attempt : Bytes}

theorem step_begin : step l.env l.name l.begin .client = some l.named := by
  simp [step, client, begin, start, named, talk, Party.receive, pure_apply]

theorem step_named (hlength : (l.name.length : ℤ) < Istream.intMax)
    (hlookup : l.env.lookup.password l.db.users l.name =
      .ok (if l.signedUp then some (cString l.password) else none)) :
    step l.env l.name l.named .server = some (if l.signedUp then l.known else l.unknown) := by
  have hrun := @server_connected l.env l.name [] [] false ⟨l.db, none⟩ hlength l.name_ne l.word Blank.nil
  have hcurrent : (⟨l.db, none⟩ : Table.Connection Db).current = l.db := rfl
  rw [List.append_nil, hcurrent, hlookup] at hrun
  cases hknown : l.signedUp with
  | false =>
    rw [hknown] at hrun
    rw [step_server (s := l.named) hrun]
    simp [named, unknown, talk, Party.receive]
  | true =>
    rw [hknown] at hrun
    rw [step_server (s := l.named) hrun]
    simp [named, known, talk, Party.receive, actual, hknown]

theorem step_unknown (hnew : l.signedUp = false) :
    step l.env l.name l.unknown .client = some (l.creating l.retries) := by
  have hrun := @client_awaitingSignedUp l.name [] [] false l.entered 0 (Or.inl rfl) Blank.nil
  rw [List.append_nil] at hrun
  rw [step_client (s := l.unknown) hrun]
  simp [unknown, creating, talk, Party.receive, entered, hnew]

/-- The confirmation was another password: the user is asked again. -/
theorem step_creating_cons (r : Bytes × Bytes) (retries : List (Bytes × Bytes)) (hr : r.1 ≠ r.2) :
    step l.env l.name (l.creating (r :: retries)) .client = some (l.creating retries) := by
  have hrun := @client_creating l.name
    ((retries.flatMap fun r => [r.1, r.2]) ++ l.password :: l.password :: l.attempts) r.1 r.2
    (l.creating (r :: retries)).client.session (by simp [creating, talk])
  rw [if_pos hr] at hrun
  rw [step_client (s := l.creating (r :: retries)) hrun]
  simp [creating, talk, Party.receive]

theorem step_creating_nil :
    step l.env l.name (l.creating []) .client = some (l.created .prompting [] l.attempts) := by
  have hrun := @client_creating l.name l.attempts l.password l.password
    (l.creating []).client.session (by simp [creating, talk])
  rw [if_neg (by simp)] at hrun
  rw [step_client (s := l.creating []) hrun]
  simp [creating, created, talk, Party.receive]

/-- The user enters the first attempt before the server has taken the new password. -/
theorem step_created_client : step l.env l.name (l.created .prompting [] (attempt :: rest)) .client =
    some (l.created .awaitingAnswer [attempt] rest) := by
  have hrun : client l.name .prompting (l.created .prompting [] (attempt :: rest)).client.session =
      (.returns (.awaitingAnswer, [textBytes attempt]),
        (l.created .awaitingAnswer [attempt] rest).client.session) := rfl
  rw [step_client (s := l.created .prompting [] (attempt :: rest)) hrun]
  simp [created, talk, Party.receive]

/-- What the server has learnt of a new user. -/
def createdMemory (attempt : List Bytes) : Memory where
  clientSent := textBytes l.name :: textBytes l.password :: attempt.map textBytes
  clientResidue := [newline]
  connection := (createNewUser l.env.codes l.name l.password ⟨l.db, none⟩).2
  length := l.password.length
  password := l.password
  serverResidue := []
  clientBlank := Blank.newline
  serverBlank := Blank.nil

theorem step_created_server (hnew : l.signedUp = false)
    (hlength : (l.password.length : ℤ) < Istream.intMax)
    (hcreate : (createNewUser l.env.codes l.name l.password ⟨l.db, none⟩).1 = true)
    (point : ClientAt) (attempt rest : List Bytes) :
    step l.env l.name (l.created point attempt rest) .server =
      some (l.asking point (createdMemory (l := l) attempt) [] (attempt.map textBytes) [] rest) := by
  have hrun := @server_signingUp l.env l.name (attempt.map textBytes).flatten [newline] false
    ⟨l.db, none⟩ l.password hlength (l.lines _ List.mem_cons_self) Blank.newline l.name.length
  rw [if_pos hcreate] at hrun
  rw [step_server (s := l.created point attempt rest) hrun]
  simp [created, asking, createdMemory, talk, Party.receive, refusals, actual, hnew]

/-- What the ends hold when the server knows the user. -/
def knownMemory : Memory where
  clientSent := [textBytes l.name]
  clientResidue := [newline]
  connection := ⟨l.db, none⟩
  length := l.name.length
  password := []
  serverResidue := [newline]
  clientBlank := Blank.newline
  serverBlank := Blank.newline

theorem step_known (hold : l.signedUp = true) : step l.env l.name l.known .client =
    some (l.asking .prompting (knownMemory (l := l)) [] [] [] l.attempts) := by
  have hrun := @client_awaitingSignedUp l.name [] [] false l.entered 1 (Or.inr rfl) Blank.nil
  rw [List.append_nil] at hrun
  rw [step_client (s := l.known) hrun]
  simp [known, asking, knownMemory, talk, Party.receive, entered, refusals, hold]

/-- What the ends hold after an attempt has been sent, and after it has been answered. -/
def Memory.sends (m : Memory) (attempt : Bytes) : Memory :=
  { m with clientSent := m.clientSent ++ [textBytes attempt] }

def Memory.takes (m : Memory) (attempt : Bytes) : Memory :=
  { m with
    length := attempt.length
    password := attempt
    serverResidue := []
    serverBlank := Blank.nil }

def Memory.reads (m : Memory) : Memory :=
  { m with clientResidue := [newline], clientBlank := Blank.newline }

theorem step_prompting : step l.env l.name (l.asking .prompting m [] [] before (attempt :: rest)) .client =
    some (l.asking .awaitingAnswer (m.sends attempt) [] [textBytes attempt] before rest) := by
  have hrun : client l.name .prompting
      (l.asking .prompting m [] [] before (attempt :: rest)).client.session =
      (.returns (.awaitingAnswer, [textBytes attempt]),
        (l.asking .awaitingAnswer m [] [] before rest).client.session) := rfl
  rw [step_client (s := l.asking .prompting m [] [] before (attempt :: rest)) hrun]
  simp [asking, talk, Party.receive, Memory.sends]

theorem step_attempted (hlength : (attempt.length : ℤ) < Istream.intMax) (hline : newline ∉ attempt) :
    step l.env l.name (l.asking .awaitingAnswer m [] [textBytes attempt] before rest) .server =
      some (if l.actual = attempt then
          l.accepted .awaitingAnswer (m.takes attempt) [flagBytes 1] before rest
        else l.asking .awaitingAnswer (m.takes attempt) [flagBytes 0] [] (before ++ [attempt]) rest) := by
  have hrun := @server_checking l.env l.name [] m.serverResidue false m.connection l.actual attempt
    hlength hline m.serverBlank m.length m.password
  rw [List.append_nil] at hrun
  have hsession : (l.asking .awaitingAnswer m [] [textBytes attempt] before rest).server.session =
      ⟨textBytes attempt, false, .fresh m.serverResidue, m.connection⟩ := by simp [asking, talk]
  by_cases heq : l.actual = attempt
  · rw [if_pos heq] at hrun ⊢
    rw [← hsession] at hrun
    rw [step_server (s := l.asking .awaitingAnswer m [] [textBytes attempt] before rest) hrun]
    simp [asking, accepted, talk, Party.receive, Memory.takes]
  · rw [if_neg heq] at hrun ⊢
    rw [← hsession] at hrun
    rw [step_server (s := l.asking .awaitingAnswer m [] [textBytes attempt] before rest) hrun]
    simp [asking, talk, Party.receive, Memory.takes, refusals]

theorem step_refused : step l.env l.name (l.asking .awaitingAnswer m [flagBytes 0] [] before rest) .client =
    some (l.asking .prompting m.reads [] [] before rest) := by
  have hrun := @client_awaitingAnswer l.name [] m.clientResidue false rest 0 (Or.inl rfl) m.clientBlank
  rw [List.append_nil] at hrun
  have hsession : (l.asking .awaitingAnswer m [flagBytes 0] [] before rest).client.session =
      ⟨flagBytes 0, false, .fresh m.clientResidue, rest⟩ := by simp [asking, talk]
  rw [← hsession] at hrun
  rw [step_client (s := l.asking .awaitingAnswer m [flagBytes 0] [] before rest) hrun]
  simp [asking, talk, Party.receive, Memory.reads]

theorem step_accepted : step l.env l.name (l.accepted .awaitingAnswer m [flagBytes 1] before rest) .client =
    some (l.accepted .loggedIn m.reads [] before rest) := by
  have hrun := @client_awaitingAnswer l.name [] m.clientResidue false rest 1 (Or.inr rfl) m.clientBlank
  rw [List.append_nil] at hrun
  have hsession : (l.accepted .awaitingAnswer m [flagBytes 1] before rest).client.session =
      ⟨flagBytes 1, false, .fresh m.clientResidue, rest⟩ := by simp [accepted, talk]
  rw [← hsession] at hrun
  rw [step_client (s := l.accepted .awaitingAnswer m [flagBytes 1] before rest) hrun]
  simp [accepted, talk, Party.receive, Memory.reads]

end Steps

section Stages

variable {l : Exchange} {s s' : Dialogue}

/-- In the attempts up to the password each is told from it. -/
theorem tells_append {password actual attempt : Bytes} {before rest : List Bytes}
    (h : Tells password actual (before ++ attempt :: rest)) (hbefore : password ∉ before) :
    attempt.length < Istream.intMax ∧ (attempt = actual ↔ attempt = password) := by
  induction before with
  | nil => exact ⟨h.1, h.2.1⟩
  | cons first before ih =>
    rw [List.mem_cons, not_or] at hbefore
    exact ih (h.2.2 (Ne.symm hbefore.1)) hbefore.2

theorem Sound.tells (hl : l.Sound) {before rest : List Bytes} {attempt : Bytes}
    (hattempts : l.attempts = before ++ attempt :: rest) (hbefore : l.password ∉ before) :
    (attempt.length : ℤ) < Istream.intMax ∧ (attempt = l.actual ↔ attempt = l.password) ∧
      newline ∉ attempt := by
  have htells := hl.attempts
  rw [hattempts] at htells
  obtain ⟨hlength, hsame⟩ := tells_append htells hbefore
  refine ⟨hlength, hsame, l.lines attempt (List.mem_cons_of_mem _ ?_)⟩
  rw [hattempts]
  exact List.mem_append_right _ List.mem_cons_self

/-- A step of the client. -/
theorem Stage.client (h : Stage l s) (hstep : step l.env l.name s .client = some s') : Stage l s' := by
  cases h with
  | begin =>
    rw [step_begin, Option.some.injEq] at hstep
    exact hstep ▸ .named
  | named => cases hstep
  | unknown hnew =>
    rw [step_unknown hnew, Option.some.injEq] at hstep
    exact hstep ▸ .creating hnew l.retries (List.suffix_refl _)
  | creating hnew retries hretries =>
    cases retries with
    | nil =>
      rw [step_creating_nil, Option.some.injEq] at hstep
      exact hstep ▸ .created hnew
    | cons r retries =>
      have hdiffer : r.1 ≠ r.2 := l.differ r (hretries.subset List.mem_cons_self)
      rw [step_creating_cons r retries hdiffer, Option.some.injEq] at hstep
      exact hstep ▸ .creating hnew retries ((List.suffix_cons r retries).trans hretries)
  | created hnew =>
    cases hattempts : l.attempts with
    | nil =>
      rw [hattempts] at hstep
      cases hstep
    | cons attempt rest =>
      rw [hattempts, step_created_client, Option.some.injEq] at hstep
      exact hstep ▸ .ahead hnew attempt rest hattempts
  | ahead hnew attempt rest hattempts => cases hstep
  | known hold =>
    rw [step_known hold, Option.some.injEq] at hstep
    exact hstep ▸ .prompting _ [] l.attempts rfl List.not_mem_nil
  | prompting m before rest hattempts hbefore =>
    cases rest with
    | nil => cases hstep
    | cons attempt rest =>
      rw [step_prompting, Option.some.injEq] at hstep
      exact hstep ▸ .attempted _ before attempt rest hattempts hbefore (List.suffix_append _ _)
  | attempted m before attempt rest hattempts hbefore hsent => cases hstep
  | refused m before attempt rest hattempts hbefore hne =>
    rw [step_refused, Option.some.injEq] at hstep
    have hrest : l.attempts = (before ++ [attempt]) ++ rest := by simp [hattempts]
    have hnot : l.password ∉ before ++ [attempt] := by simp [hbefore, Ne.symm hne]
    exact hstep ▸ .prompting _ _ rest hrest hnot
  | accepted m before rest hattempts hbefore =>
    rw [step_accepted, Option.some.injEq] at hstep
    exact hstep ▸ .loggedIn _ before rest hattempts hbefore
  | loggedIn m before rest hattempts hbefore => cases hstep

/-- A step of the server. -/
theorem Stage.server (hl : l.Sound) (h : Stage l s) (hstep : step l.env l.name s .server = some s') :
    Stage l s' := by
  cases h with
  | begin => cases hstep
  | named =>
    rw [step_named hl.name hl.lookup, Option.some.injEq] at hstep
    cases hknown : l.signedUp with
    | false =>
      rw [hknown] at hstep
      exact hstep ▸ .unknown hknown
    | true =>
      rw [hknown] at hstep
      exact hstep ▸ .known hknown
  | unknown hnew => cases hstep
  | creating hnew retries hretries => cases hstep
  | created hnew =>
    obtain ⟨hlength, hcreate⟩ := hl.signUp hnew
    rw [step_created_server hnew hlength hcreate, Option.some.injEq] at hstep
    exact hstep ▸ .prompting _ [] l.attempts rfl List.not_mem_nil
  | ahead hnew attempt rest hattempts =>
    obtain ⟨hlength, hcreate⟩ := hl.signUp hnew
    rw [step_created_server hnew hlength hcreate, Option.some.injEq] at hstep
    exact hstep ▸ .attempted _ [] attempt rest hattempts List.not_mem_nil
      ⟨[textBytes l.name, textBytes l.password], rfl⟩
  | known hold => cases hstep
  | prompting m before rest hattempts hbefore => cases hstep
  | attempted m before attempt rest hattempts hbefore hsent =>
    obtain ⟨hlength, hsame, hline⟩ := hl.tells hattempts hbefore
    rw [step_attempted hlength hline, Option.some.injEq] at hstep
    by_cases heq : l.actual = attempt
    · rw [if_pos heq] at hstep
      have hpassword : attempt = l.password := hsame.mp heq.symm
      rw [hpassword] at hattempts
      exact hstep ▸ .accepted _ before rest hattempts hbefore
    · rw [if_neg heq] at hstep
      have hne : attempt ≠ l.password := fun h => heq (hsame.mpr h).symm
      exact hstep ▸ .refused _ before attempt rest hattempts hbefore hne
  | refused m before attempt rest hattempts hbefore hne => cases hstep
  | accepted m before rest hattempts hbefore => cases hstep
  | loggedIn m before rest hattempts hbefore => cases hstep

theorem textBytes_ne_nil (text : Bytes) : textBytes text ≠ [] := by simp [textBytes]

theorem flagBytes_ne_nil (flag : ℤ) : flagBytes flag ≠ [] := by simp [flagBytes]

theorem verdicts_append {password : Bytes} {before : List Bytes} (hbefore : password ∉ before)
    (rest : List Bytes) :
    verdicts password (before ++ rest) = (before.map fun _ => 0) ++ verdicts password rest := by
  induction before with
  | nil => rfl
  | cons first before ih =>
    rw [List.mem_cons, not_or] at hbefore
    rw [List.cons_append, verdicts, if_neg (Ne.symm hbefore.1), ih hbefore.2]
    rfl

/-- Refusals, and the verdicts on the attempts that are left. -/
theorem replies_eq {before rest : List Bytes} (hattempts : l.attempts = before ++ rest)
    (hbefore : l.password ∉ before) :
    l.replies = l.refusals before ++ (verdicts l.password rest).map flagBytes := by
  rw [replies, hattempts, verdicts_append hbefore, List.map_append, refusals, List.cons_append,
    List.map_map]
  rfl

theorem replies_accepted {before rest : List Bytes}
    (hattempts : l.attempts = before ++ l.password :: rest) (hbefore : l.password ∉ before) :
    l.replies = l.refusals before ++ [flagBytes 1] := by
  rw [replies_eq hattempts hbefore, verdicts, if_pos rfl]
  rfl

/-- The flag alone. -/
theorem first_reply {signedUp : Bool} (h : l.signedUp = signedUp) :
    [flagBytes (if signedUp then 1 else 0)] <+: l.replies := by
  rw [← h]
  exact ⟨(verdicts l.password l.attempts).map flagBytes, rfl⟩

theorem aligned_nil {σ : Type} {residue : Bytes} {world : σ} (sent : List Bytes) (hr : Blank residue) :
    Aligned ⟨[], false, .fresh residue, world⟩ sent :=
  ⟨⟨[], List.nil_suffix, rfl⟩, residue, hr, rfl⟩

theorem aligned_of_suffix {σ : Type} {residue : Bytes} {world : σ} {messages sent : List Bytes}
    (h : messages <:+ sent) (hr : Blank residue) :
    Aligned ⟨messages.flatten, false, .fresh residue, world⟩ sent :=
  ⟨⟨messages, h, rfl⟩, residue, hr, rfl⟩

theorem aligned_last {σ : Type} {residue message : Bytes} {world : σ} (sent : List Bytes)
    (hr : Blank residue) :
    Aligned ⟨message, false, .fresh residue, world⟩ (sent ++ [message]) :=
  ⟨⟨[message], List.suffix_append _ _, by simp⟩, residue, hr, rfl⟩

theorem refusals_append (before : List Bytes) (attempt : Bytes) :
    l.refusals (before ++ [attempt]) = l.refusals before ++ [flagBytes 0] := by
  simp [refusals]

/-- In every state of the exchange what it is for holds. -/
theorem Stage.exact (hl : l.Sound) (h : Stage l s) : Exact l s := by
  cases h with
  | begin =>
    exact ⟨⟨nofun, nofun⟩, aligned_nil _ Blank.nil, aligned_nil _ Blank.nil, fun h => absurd rfl h,
      fun h => absurd rfl h, nofun, List.nil_prefix, nofun, nofun⟩
  | named =>
    refine ⟨⟨nofun, nofun⟩, aligned_nil _ Blank.nil, aligned_last [] Blank.nil,
      fun h => absurd rfl h, fun _ => ?_, fun _ => Or.inr (textBytes_ne_nil _), List.nil_prefix,
      nofun, nofun⟩
    rw [step_named hl.name hl.lookup]
    rfl
  | unknown hnew =>
    refine ⟨⟨nofun, nofun⟩, aligned_last [] Blank.nil, aligned_nil _ Blank.newline, fun _ => ?_,
      fun h => absurd rfl h, fun _ => Or.inl (flagBytes_ne_nil _), ?_, nofun, nofun⟩
    · rw [step_unknown hnew]
      rfl
    · exact first_reply hnew
  | creating hnew retries hretries =>
    refine ⟨⟨nofun, nofun⟩, aligned_nil _ Blank.newline, aligned_nil _ Blank.newline,
      fun h => absurd rfl h, fun h => absurd rfl h, nofun, ?_, nofun, nofun⟩
    exact first_reply hnew
  | created hnew =>
    obtain ⟨hlength, hcreate⟩ := hl.signUp hnew
    refine ⟨⟨nofun, nofun⟩, aligned_nil _ Blank.newline, ?_, fun h => absurd rfl h, fun _ => ?_, nofun,
      ?_, nofun, nofun⟩
    · exact @aligned_of_suffix _ _ _ [textBytes l.password] _ (List.suffix_cons _ _) Blank.newline
    · rw [step_created_server hnew hlength hcreate]
      rfl
    · exact first_reply hnew
  | ahead hnew attempt rest hattempts =>
    obtain ⟨hlength, hcreate⟩ := hl.signUp hnew
    refine ⟨⟨nofun, nofun⟩, aligned_nil _ Blank.newline, ?_, fun h => absurd rfl h, fun _ => ?_,
      fun _ => Or.inr ?_, ?_, nofun, nofun⟩
    · exact @aligned_of_suffix _ _ _ [textBytes l.password, textBytes attempt] _
        (List.suffix_cons _ _) Blank.newline
    · rw [step_created_server hnew hlength hcreate]
      rfl
    · exact List.append_ne_nil_of_left_ne_nil (textBytes_ne_nil _) _
    · exact first_reply hnew
  | known hold =>
    refine ⟨⟨nofun, nofun⟩, aligned_last [] Blank.nil, aligned_nil _ Blank.newline, fun _ => ?_,
      fun h => absurd rfl h, fun _ => Or.inl (flagBytes_ne_nil _), ?_, nofun, nofun⟩
    · rw [step_known hold]
      rfl
    · exact first_reply hold
  | prompting m before rest hattempts hbefore =>
    refine ⟨⟨nofun, nofun⟩, aligned_nil _ m.clientBlank, aligned_nil _ m.serverBlank,
      fun h => absurd rfl h, fun h => absurd rfl h, nofun, ?_, nofun, nofun⟩
    rw [replies_eq hattempts hbefore]
    exact List.prefix_append _ _
  | attempted m before attempt rest hattempts hbefore hsent =>
    obtain ⟨hlength, -, hline⟩ := hl.tells hattempts hbefore
    have hwire : [textBytes attempt].flatten ≠ [] := by simp [textBytes_ne_nil]
    refine ⟨⟨nofun, nofun⟩, aligned_nil _ m.clientBlank, aligned_of_suffix hsent m.serverBlank,
      fun h => absurd rfl h, fun _ => ?_, fun _ => Or.inr hwire, ?_, nofun, nofun⟩
    · rw [step_attempted hlength hline]
      rfl
    · rw [replies_eq hattempts hbefore]
      exact List.prefix_append _ _
  | refused m before attempt rest hattempts hbefore hne =>
    have hwire : [flagBytes 0].flatten ≠ [] := by simp [flagBytes_ne_nil]
    refine ⟨⟨nofun, nofun⟩, aligned_of_suffix ?_ m.clientBlank, aligned_nil _ m.serverBlank,
      fun _ => ?_, fun h => absurd rfl h, fun _ => Or.inl hwire, ?_, nofun, nofun⟩
    · have hsent : (l.asking .awaitingAnswer m [flagBytes 0] [] (before ++ [attempt]) rest).server.sent =
          l.refusals before ++ [flagBytes 0] := refusals_append before attempt
      rw [hsent]
      exact List.suffix_append _ _
    · rw [step_refused]
      rfl
    · have hrest : l.attempts = (before ++ [attempt]) ++ rest := by simp [hattempts]
      have hnot : l.password ∉ before ++ [attempt] := by simp [hbefore, Ne.symm hne]
      rw [replies_eq hrest hnot]
      exact List.prefix_append _ _
  | accepted m before rest hattempts hbefore =>
    have hreplies := replies_accepted hattempts hbefore
    have hwire : [flagBytes 1].flatten ≠ [] := by simp [flagBytes_ne_nil]
    refine ⟨⟨nofun, nofun⟩, aligned_of_suffix (List.suffix_append _ _) m.clientBlank,
      aligned_nil _ m.serverBlank, fun _ => ?_, fun h => absurd rfl h, fun _ => Or.inl hwire, ?_,
      fun username hpoint => ⟨?_, hreplies.symm, ?_⟩, nofun⟩
    · rw [step_accepted]
      rfl
    · rw [hreplies]
      exact List.prefix_refl _
    · exact (ServerAt.entered.inj hpoint).symm
    · rw [hattempts]
      exact List.mem_append_right _ List.mem_cons_self
  | loggedIn m before rest hattempts hbefore =>
    have hreplies := replies_accepted hattempts hbefore
    refine ⟨⟨nofun, nofun⟩, aligned_nil _ m.clientBlank, aligned_nil _ m.serverBlank,
      fun h => absurd rfl h, fun h => absurd rfl h, nofun, ?_,
      fun username hpoint => ⟨?_, hreplies.symm, ?_⟩, fun _ => ⟨l.name, rfl⟩⟩
    · rw [hreplies]
      exact List.prefix_refl _
    · exact (ServerAt.entered.inj hpoint).symm
    · rw [hattempts]
      exact List.mem_append_right _ List.mem_cons_self

end Stages

/-- A state that some order of the steps leads to. -/
def Reaches (l : Exchange) (s : Dialogue) : Prop := ∃ sides, l.run sides = some s

section Converse

variable {l : Exchange} {s s' : Dialogue} {side : Side}

theorem Reaches.next (h : l.Reaches s) (hstep : step l.env l.name s side = some s') : l.Reaches s' := by
  obtain ⟨sides, hrun⟩ := h
  refine ⟨sides ++ [side], ?_⟩
  have hlast : Transition.run (step l.env l.name) s [side] = some s' := by
    rw [Transition.run, hstep]
    rfl
  rw [run, Transition.run_append, show Transition.run _ l.begin sides = some s from hrun]
  exact hlast

theorem reaches_named : l.Reaches l.named :=
  Reaches.next ⟨[], rfl⟩ step_begin

theorem name_of_exact (hexact : ∀ s, l.Reaches s → Exact l s) :
    (l.name.length : ℤ) < Istream.intMax := by
  by_contra hlong
  have hshort : l.name.length < 2 ^ 63 := l.short _ List.mem_cons_self
  have hreads := (hexact _ reaches_named).serverReads (textBytes_ne_nil _)
  rw [step_server_waits] at hreads
  · cases hreads
  · exact bind_waits (recvUsername_overlong (by omega) hshort Blank.nil _) _

theorem lookup_of_exact (hexact : ∀ s, l.Reaches s → Exact l s) :
    l.env.lookup.password l.db.users l.name =
    .ok (if l.signedUp then some (cString l.password) else none) := by
  have hrun := @server_connected l.env l.name [] [] false ⟨l.db, none⟩ (name_of_exact hexact) l.name_ne
    l.word Blank.nil
  have hcurrent : (⟨l.db, none⟩ : Table.Connection Db).current = l.db := rfl
  rw [List.append_nil, hcurrent] at hrun
  have hregistered := l.registered
  cases hlookup : l.env.lookup with
  | throws =>
    rw [hlookup] at hrun
    have hthrows := @step_server_throws l.env l.name l.named _ _ hrun
    exact absurd rfl (hexact _ (reaches_named.next hthrows)).running.2
  | interrupted code =>
    cases hknown : l.signedUp with
    | false => rfl
    | true =>
      rw [hlookup] at hrun
      have hnone := @step_server l.env l.name l.named _ _ _ hrun
      have hreplies := (hexact _ (reaches_named.next hnone)).replies
      simp only [replies, hknown, if_true] at hreplies
      exact absurd (List.cons_prefix_cons.mp hreplies).1 (by decide)
  | completes =>
    cases hrows : selectPassword l.db.users l.name with
    | nil =>
      rw [hrows] at hregistered
      cases hknown : l.signedUp with
      | false => simp [Lookup.password, hrows, complete, passwordFromUsername]
      | true =>
        rw [hknown] at hregistered
        cases hregistered
    | cons row rows =>
      rw [hrows] at hregistered
      cases hknown : l.signedUp with
      | false =>
        rw [hknown] at hregistered
        cases hregistered
      | true =>
        rw [hknown] at hregistered
        have hrow : row = l.password := Option.some.inj hregistered
        simp [Lookup.password, hrows, complete, passwordFromUsername, hrow]

/-- The user ends up with the same password twice. -/
theorem reaches_created (hexact : ∀ s, l.Reaches s → Exact l s) (hnew : l.signedUp = false) :
    l.Reaches (l.created .prompting [] l.attempts) := by
  have hnamed := step_named (name_of_exact hexact) (lookup_of_exact hexact)
  rw [hnew] at hnamed
  have hall : ∀ retries, retries <:+ l.retries → l.Reaches (l.creating retries) →
      l.Reaches (l.creating []) := by
    intro retries
    induction retries with
    | nil => exact fun _ h => h
    | cons r retries ih =>
      intro hretries h
      have hdiffer : r.1 ≠ r.2 := l.differ r (hretries.subset List.mem_cons_self)
      exact ih ((List.suffix_cons r retries).trans hretries) (h.next (step_creating_cons r retries hdiffer))
  have hfirst := (reaches_named.next hnamed).next (step_unknown hnew)
  exact (hall l.retries (List.suffix_refl _) hfirst).next step_creating_nil

theorem signUp_of_exact (hexact : ∀ s, l.Reaches s → Exact l s) (hnew : l.signedUp = false) :
    (l.password.length : ℤ) < Istream.intMax ∧
      (createNewUser l.env.codes l.name l.password ⟨l.db, none⟩).1 = true := by
  have hreached := reaches_created hexact hnew
  have hwire : (l.created .prompting [] l.attempts).server.session.wire = textBytes l.password :=
    List.append_nil _
  have hlength : (l.password.length : ℤ) < Istream.intMax := by
    by_contra hlong
    have hshort : l.password.length < 2 ^ 63 := l.short _ (List.mem_cons_of_mem _ List.mem_cons_self)
    have hreads := (hexact _ hreached).serverReads (by rw [hwire]; exact textBytes_ne_nil _)
    have hwaits := @recvText_overlong _ [newline] l.password (⟨l.db, none⟩ : Table.Connection Db)
      (not_lt.mp hlong) hshort Blank.newline l.name.length []
    rw [← hwire] at hwaits
    rw [step_server_waits (s := l.created .prompting [] l.attempts) (server_signingUp_waits hwaits)]
      at hreads
    cases hreads
  refine ⟨hlength, ?_⟩
  by_contra hfails
  have hrun := @server_signingUp l.env l.name [] [newline] false ⟨l.db, none⟩ l.password hlength
    (l.lines _ List.mem_cons_self) Blank.newline l.name.length
  rw [if_neg hfails] at hrun
  have hthrows := @step_server_throws l.env l.name (l.created .prompting [] l.attempts) _ _ hrun
  exact (hexact _ (hreached.next hthrows)).running.2 rfl

/-- From each prompt on, the attempts that are left are told from the password. -/
theorem tells_of_exact (hexact : ∀ s, l.Reaches s → Exact l s) (rest : List Bytes) :
    ∀ before m, l.attempts = before ++ rest → l.password ∉ before →
      l.Reaches (l.asking .prompting m [] [] before rest) → Tells l.password l.actual rest := by
  induction rest with
  | nil => exact fun _ _ _ _ _ => trivial
  | cons attempt rest ih =>
    intro before m hattempts hbefore hreached
    have hmem : attempt ∈ l.attempts := by
      rw [hattempts]
      exact List.mem_append_right _ List.mem_cons_self
    have hsent := hreached.next step_prompting
    have hwire : (l.asking .awaitingAnswer (m.sends attempt) [] [textBytes attempt] before
        rest).server.session.wire = textBytes attempt := List.append_nil _
    have hlength : (attempt.length : ℤ) < Istream.intMax := by
      by_contra hlong
      have hshort : attempt.length < 2 ^ 63 :=
        l.short _ (List.mem_cons_of_mem _ (List.mem_cons_of_mem _ hmem))
      have hreads := (hexact _ hsent).serverReads (by rw [hwire]; exact textBytes_ne_nil _)
      have hwaits := @recvText_overlong _ m.serverResidue attempt m.connection (not_lt.mp hlong) hshort
        m.serverBlank m.length m.password
      rw [← hwire] at hwaits
      rw [step_server_waits
        (s := l.asking .awaitingAnswer (m.sends attempt) [] [textBytes attempt] before rest)
        (server_checking_waits hwaits)] at hreads
      cases hreads
    have hanswered := hsent.next
      (step_attempted hlength (l.lines attempt (List.mem_cons_of_mem _ hmem)))
    have hreplies := replies_eq hattempts hbefore
    have hprefix := (hexact _ hanswered).replies
    have hsame : attempt = l.actual ↔ attempt = l.password := by
      have hdistinct : flagBytes 0 ≠ flagBytes 1 := by decide
      by_cases heq : l.actual = attempt
      · rw [if_pos heq, hreplies] at hprefix
        have hverdict := (List.prefix_append_right_inj _).mp hprefix
        by_cases hpassword : attempt = l.password
        · exact iff_of_true heq.symm hpassword
        · rw [verdicts, if_neg hpassword] at hverdict
          exact absurd (List.cons_prefix_cons.mp hverdict).1 hdistinct.symm
      · rw [if_neg heq, hreplies] at hprefix
        have hsent' : (l.asking .awaitingAnswer ((m.sends attempt).takes attempt) [flagBytes 0] []
            (before ++ [attempt]) rest).server.sent = l.refusals before ++ [flagBytes 0] :=
          refusals_append before attempt
        rw [hsent'] at hprefix
        have hverdict := (List.prefix_append_right_inj _).mp hprefix
        by_cases hpassword : attempt = l.password
        · rw [verdicts, if_pos hpassword] at hverdict
          exact absurd (List.cons_prefix_cons.mp hverdict).1 hdistinct
        · exact iff_of_false (Ne.symm heq) hpassword
    refine ⟨hlength, hsame, fun hne => ?_⟩
    have hactual : l.actual ≠ attempt := fun h => hne (hsame.mp h.symm)
    rw [if_neg hactual] at hanswered
    have hrest : l.attempts = (before ++ [attempt]) ++ rest := by simp [hattempts]
    have hnot : l.password ∉ before ++ [attempt] := by simp [hbefore, Ne.symm hne]
    exact ih _ _ hrest hnot (hanswered.next step_refused)

/-- What every run shows is what an exact exchange takes. -/
theorem sound_of_exact (hexact : ∀ s, l.Reaches s → Exact l s) : l.Sound := by
  refine ⟨name_of_exact hexact, lookup_of_exact hexact, signUp_of_exact hexact, ?_⟩
  have hnamed := step_named (name_of_exact hexact) (lookup_of_exact hexact)
  cases hknown : l.signedUp with
  | false =>
    obtain ⟨hlength, hcreate⟩ := signUp_of_exact hexact hknown
    have hcreated := (reaches_created hexact hknown).next
      (step_created_server hknown hlength hcreate .prompting [] l.attempts)
    exact tells_of_exact hexact l.attempts [] _ rfl List.not_mem_nil hcreated
  | true =>
    rw [hknown] at hnamed
    have hprompting := (reaches_named.next hnamed).next (step_known hknown)
    exact tells_of_exact hexact l.attempts [] _ rfl List.not_mem_nil hprompting

end Converse

/-- Every state of every order of the steps is as it should be exactly when the texts can be announced
in an `int`, the calls on the database succeed, and no attempt up to the password is the password without
being the text that the server compares with, or the other way round. -/
theorem login_exact (l : Exchange) :
    (∀ sides s, l.run sides = some s → Exact l s) ↔ l.Sound := by
  constructor
  · intro hexact
    exact sound_of_exact fun s ⟨sides, hrun⟩ => hexact sides s hrun
  · intro hl sides s hrun
    have hstage : Stage l s := by
      apply run_keeps (I := Stage l) _ .begin hrun
      intro s side s' hs hstep
      cases side with
      | client => exact hs.client hstep
      | server => exact hs.server hl hstep
    exact hstage.exact hl

/-- A later session finds what the sign-up has left. -/
theorem registered_after_signUp (codes : SignUpCodes) (name password : Bytes) (db : Db)
    (hbegin : codes.begin = .ok) (hcommit : codes.commit = .ok)
    (hnew : selectPassword db.users name = [])
    (hreturns : (createNewUser codes name password ⟨db, none⟩).1 = true) :
    (selectPassword (createNewUser codes name password ⟨db, none⟩).2.committed.users name).head? =
      some password := by
  obtain ⟨hsucceeds, hfails⟩ := createNewUser_begun codes name password hbegin db
  by_cases hboth : codes.Inserts ∧ codes.Creates name (db.addUser name password)
  · rw [hsucceeds hboth, hcommit]
    have husers : (db.register name password).users = db.users ++ [(name, password)] := rfl
    have hselect : selectPassword (db.users ++ [(name, password)]) name =
        selectPassword db.users name ++ [password] := by
      simp [selectPassword, List.filter_append]
    simp only [Connection.commit, husers, hselect, hnew, List.nil_append, List.head?_cons]
  · rw [hfails hboth] at hreturns
    cases hreturns

section Samples

/-- A later session of the user "u", all calls on the database being successful. -/
def laterSession (password : Bytes) (attempts : List Bytes)
    (hlines : ∀ text ∈ password :: attempts, newline ∉ text)
    (hshort : ∀ text ∈ [117] :: password :: attempts, text.length < 2 ^ 63) : Exchange where
  env := ⟨.completes, commitCodes .ok, 0⟩
  db := ⟨[([117], password)], fun _ => none⟩
  name := [117]
  password := password
  signedUp := true
  retries := []
  attempts := attempts
  name_ne := by decide
  word := by decide
  lines := hlines
  differ := by simp
  short := hshort
  registered := by simp [selectPassword]

/-- The password "ab", after a wrong one. -/
def plainSession : Exchange :=
  laterSession [97, 98] [[97], [97, 98]] (by decide) (by decide)

theorem login_exact_plain : ∀ sides s, plainSession.run sides = some s → Exact plainSession s :=
  (login_exact plainSession).mpr ⟨by decide, rfl, nofun, by decide⟩

/-- The password is 'a', NUL, 'b'. -/
def nulSession : Exchange :=
  laterSession [97, 0, 98] [[97, 0, 98]] (by decide) (by decide)

/-- The server refuses it. -/
theorem nul_password_refused : ¬∀ l : Exchange, ∀ sides s, l.run sides = some s → Exact l s := by
  intro hexact
  have hrun : (nulSession.run [.client, .server, .client, .client, .server]).map
      (fun s => s.server.sent) = some [flagBytes 1, flagBytes 0] := by decide
  obtain ⟨s, hs, hsent⟩ := Option.map_eq_some_iff.mp hrun
  have hreplies := (hexact nulSession _ s hs).replies
  rw [hsent] at hreplies
  exact absurd hreplies (by decide)

end Samples

end Exchange
end BackupManager.Protocol.Login
