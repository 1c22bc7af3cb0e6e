import BackupManager.Protocol.Login

/-! What each end of `login` does with a message that has arrived. -/
namespace BackupManager.Protocol.Login
open ByteStream Server Table Transition Prog

section Reading

variable {σ : Type} {wire residue text : Bytes} {closed : Bool} {world : σ}

/-- The length of a text that can be announced is read as it was written. -/
theorem recvInt_announced (h : (text.length : ℤ) < Istream.intMax) (hr : Blank residue) (old : ℤ) :
    recvInt intMaxNDigit old ⟨textBytes text ++ wire, closed, .fresh residue, world⟩ =
      (.returns text.length, ⟨text ++ newline :: wire, closed, .fresh [newline], world⟩) := by
  have hmax : Istream.intMax = 2147483647 := rfl
  have hmin : Istream.intMin = -2147483648 := rfl
  have hfits : Fits intMaxNDigit (text.length : ℤ) := by
    rw [fits_natCast (by decide)]
    simp only [intMaxNDigit]
    omega
  have hint : InInt (text.length : ℤ) := ⟨by omega, by omega⟩
  have hwire : textBytes text ++ wire = field intMaxNDigit text.length ++ (text ++ newline :: wire) := by
    simp [textBytes]
  rw [hwire]
  exact Prog.recvInt_field hfits hint hr old

theorem recvText_bytes (h : (text.length : ℤ) < Istream.intMax) (hline : newline ∉ text)
    (hr : Blank residue) (length : ℤ) (old : Bytes) :
    recvText length old ⟨textBytes text ++ wire, closed, .fresh residue, world⟩ =
      (.returns (↑text.length, text), ⟨wire, closed, .fresh [], world⟩) := by
  have hread := @recvLine_field σ wire closed world text _ (sizeOfInt_intSucc (Int.ofNat_lt.mp h)) hline old
  rw [recvText, bind_of_returns (recvInt_announced h hr length), bind_of_returns hread]
  rfl

theorem recvUsername_bytes (h : (text.length : ℤ) < Istream.intMax) (hne : text ≠ [])
    (hword : ∀ b ∈ text, isSpace b = false) (hr : Blank residue) (length : ℤ) :
    recvUsername length ⟨textBytes text ++ wire, closed, .fresh residue, world⟩ =
      (.returns (↑text.length, text), ⟨wire, closed, .fresh [newline], world⟩) := by
  have hread := read_append (text ++ [newline]) wire closed (.fresh [newline]) world
  rw [List.length_append, List.length_singleton, List.append_assoc, List.singleton_append,
    ← sizeOfInt_intSucc (Int.ofNat_lt.mp h)] at hread
  have hget := @Istream.getWord_fresh text [] hne hword [newline] Blank.newline []
  have hreceive : (Istream.fresh [newline]).receive (text ++ [newline]) =
      .fresh ([newline] ++ text ++ [newline]) := by simp
  rw [hreceive] at hread
  rw [recvUsername, bind_of_returns (recvInt_announced h hr length), bind_of_returns hread,
    bind_of_returns (getWord_apply [] _), hget]
  rfl

/-- The most a `string` and its length take. -/
theorem length_textBytes (h : text.length < 2 ^ 63) : (textBytes text).length < 2 ^ 64 - 2 ^ 31 := by
  have hdigits : (decimal text.length).length ≤ 19 :=
    (length_decimal_le_iff (by decide)).mpr (lt_trans h (by decide))
  have hmax : max intMaxNDigit (decimal text.length).length ≤ 19 := max_le (by decide) hdigits
  rw [textBytes, List.length_append, List.length_append, List.length_singleton, length_field,
    showInt_natCast]
  omega

/-- A text that cannot be announced is waited for in vain. -/
theorem announced_overlong {α : Type} (h : Istream.intMax ≤ (text.length : ℤ))
    (hshort : text.length < 2 ^ 63) (hr : Blank residue) (old : ℤ) (rest : ℤ → Unit → Prog σ α) :
    ((recvInt intMaxNDigit old >>= fun length => read (sizeOfInt (intSucc length)) >>= rest length)
      ⟨textBytes text, false, .fresh residue, world⟩).1 = .waits := by
  have hfield : intMaxNDigit + 1 ≤ (field intMaxNDigit (text.length : ℤ)).length := by
    rw [length_field]
    omega
  have hlength : intMaxNDigit + 1 ≤ (textBytes text).length := by
    rw [textBytes, List.length_append, List.length_append]
    omega
  obtain ⟨v, s', hrecv⟩ := recvInt_of_le
    (s := (⟨textBytes text, false, .fresh residue, world⟩ : Session σ)) hlength old
  have hv : v = Istream.intMax := by
    have hmax : Istream.intMax < 10 ^ intMaxNDigit := by decide
    have hrecv' := hrecv
    rw [textBytes, List.append_assoc] at hrecv'
    rw [recvInt_count hmax hr hrecv', min_eq_right h]
  obtain ⟨-, hs', -⟩ := recvInt_returns hrecv
  have hwaits : ¬sizeOfInt (intSucc v) ≤ s'.wire.length := by
    have htotal := length_textBytes hshort
    have hrest : s'.wire.length ≤ (textBytes text).length := by
      rw [hs']
      exact (List.length_drop (l := textBytes text)).trans_le (Nat.sub_le _ _)
    rw [hv, sizeOfInt_intSucc_intMax]
    omega
  have hread : Prog.read (sizeOfInt (intSucc v)) s' = (.waits, s') := by
    rw [Prog.read, if_neg hwaits, if_neg (by rw [hs']; simp)]
  rw [bind_of_returns hrecv, bind_of_waits hread]

theorem bind_waits {α β : Type} {p : Prog σ α} {s : Session σ} (h : (p s).1 = .waits)
    (f : α → Prog σ β) : ((p >>= f) s).1 = .waits := by
  cases hp : p s with
  | mk outcome s' =>
    rw [hp] at h
    subst h
    rw [bind_of_waits hp]

theorem recvText_overlong (h : Istream.intMax ≤ (text.length : ℤ)) (hshort : text.length < 2 ^ 63)
    (hr : Blank residue) (length : ℤ) (old : Bytes) :
    (recvText length old ⟨textBytes text, false, .fresh residue, world⟩).1 = .waits := by
  have heq : (recvText length old : Prog σ (ℤ × Bytes)) = recvInt intMaxNDigit length >>= fun length =>
      Prog.read (sizeOfInt (intSucc length)) >>= fun _ => ignore >>= fun _ => getLine old >>= fun text =>
        pure (length, text) := by
    simp only [recvText, recvLine, bind_assoc]
  rw [heq]
  exact announced_overlong h hshort hr length _

theorem recvUsername_overlong (h : Istream.intMax ≤ (text.length : ℤ)) (hshort : text.length < 2 ^ 63)
    (hr : Blank residue) (length : ℤ) :
    (recvUsername length ⟨textBytes text, false, .fresh residue, world⟩).1 = .waits :=
  announced_overlong h hshort hr length _

/-- `0` and `1` are read as they were written. -/
theorem recvInt_flag {flag : ℤ} (h : flag = 0 ∨ flag = 1) (hr : Blank residue) (old : ℤ) :
    recvInt 1 old ⟨flagBytes flag ++ wire, closed, .fresh residue, world⟩ =
      (.returns flag, ⟨wire, closed, .fresh [newline], world⟩) := by
  rcases h with rfl | rfl
  · exact Prog.recvInt_field (w := 1) (z := 0) (by decide) (by decide) hr old
  · exact Prog.recvInt_field (w := 1) (z := 1) (by decide) (by decide) hr old

end Reading

section Parts

variable {env : Env} {name wire residue : Bytes} {closed : Bool} {lines : List Bytes}
  {c : Table.Connection Db}

theorem client_awaitingSignedUp {flag : ℤ} (h : flag = 0 ∨ flag = 1) (hr : Blank residue) :
    client name .awaitingSignedUp ⟨flagBytes flag ++ wire, closed, .fresh residue, lines⟩ =
      (.returns (if flag = 0 then .creating else .prompting, []),
        ⟨wire, closed, .fresh [newline], lines⟩) := by
  rw [client, bind_of_returns (recvInt_flag h hr 0)]
  rfl

theorem client_awaitingAnswer {flag : ℤ} (h : flag = 0 ∨ flag = 1) (hr : Blank residue) :
    client name .awaitingAnswer ⟨flagBytes flag ++ wire, closed, .fresh residue, lines⟩ =
      (.returns (if flag = 0 then .prompting else .loggedIn, []),
        ⟨wire, closed, .fresh [newline], lines⟩) := by
  rw [client, bind_of_returns (recvInt_flag h hr 0)]
  rfl

theorem client_creating (password confirmed : Bytes) {s : Session (List Bytes)}
    (h : s.world = password :: confirmed :: lines) : client name .creating s =
      (.returns (if password ≠ confirmed then (.creating, []) else (.prompting, [textBytes password])),
        { s with world := lines }) := by
  obtain ⟨wire, closed, stream, world⟩ := s
  subst h
  have hfirst : enterLine ⟨wire, closed, stream, password :: confirmed :: lines⟩ =
      (.returns password, ⟨wire, closed, stream, confirmed :: lines⟩) := rfl
  have hsecond : enterLine ⟨wire, closed, stream, confirmed :: lines⟩ =
      (.returns confirmed, ⟨wire, closed, stream, lines⟩) := rfl
  rw [client, bind_of_returns hfirst, bind_of_returns hsecond]
  split_ifs <;> rfl

/-- Whatever the query gives, the server has taken the name. -/
theorem server_connected (hlength : (name.length : ℤ) < Istream.intMax) (hne : name ≠ [])
    (hword : ∀ b ∈ name, isSpace b = false) (hr : Blank residue) :
    server env .connected ⟨textBytes name ++ wire, closed, .fresh residue, c⟩ =
      (match env.lookup.password c.current.users name with
        | .error what => .throws what
        | .ok (some actualPassword) =>
          .returns (.checking name actualPassword name.length [], [flagBytes 1])
        | .ok none => .returns (.signingUp name name.length, [flagBytes 0]),
      ⟨wire, closed, .fresh [newline], c⟩) := by
  rw [server, bind_of_returns (recvUsername_bytes hlength hne hword hr env.uninit)]
  dsimp only
  rw [bind_of_returns (getWorld_apply _)]
  cases hlookup : env.lookup.password c.current.users name with
  | error what =>
    simp only
    rfl
  | ok found => cases found <;> rfl

theorem server_signingUp {password : Bytes} (hlength : (password.length : ℤ) < Istream.intMax)
    (hline : newline ∉ password) (hr : Blank residue) (length : ℤ) :
    server env (.signingUp name length) ⟨textBytes password ++ wire, closed, .fresh residue, c⟩ =
      (if (createNewUser env.codes name password c).1 then
          .returns (.checking name password password.length password, [])
        else .throws "SQLITE error",
      ⟨wire, closed, .fresh [], (createNewUser env.codes name password c).2⟩) := by
  rw [server, bind_of_returns (recvText_bytes hlength hline hr length [])]
  dsimp only
  cases hcreate : (createNewUser env.codes name password c).1 with
  | false => simp [act, bind_apply, hcreate]
  | true => simp [act, bind_apply, hcreate]

theorem server_checking {actualPassword password : Bytes}
    (hlength : (password.length : ℤ) < Istream.intMax) (hline : newline ∉ password)
    (hr : Blank residue) (length : ℤ) (old : Bytes) :
    server env (.checking name actualPassword length old)
        ⟨textBytes password ++ wire, closed, .fresh residue, c⟩ =
      (.returns (if actualPassword = password then (.entered name, [flagBytes 1])
          else (.checking name actualPassword password.length password, [flagBytes 0])),
      ⟨wire, closed, .fresh [], c⟩) := by
  rw [server, bind_of_returns (recvText_bytes hlength hline hr length old)]
  dsimp only
  by_cases heq : actualPassword = password
  · rw [if_pos heq, if_pos heq]
    rfl
  · rw [if_neg heq, if_neg heq]
    rfl

/-- A password that does not come is waited for. -/
theorem server_signingUp_waits {length : ℤ} {s : Session (Table.Connection Db)}
    (h : (recvText length [] s).1 = .waits) : (server env (.signingUp name length) s).1 = .waits := by
  rw [server]
  exact bind_waits h _

theorem server_checking_waits {length : ℤ} {actualPassword old : Bytes}
    {s : Session (Table.Connection Db)} (h : (recvText length old s).1 = .waits) :
    (server env (.checking name actualPassword length old) s).1 = .waits := by
  rw [server]
  exact bind_waits h _

end Parts

section Steps

variable {env : Env} {name : Bytes} {s : Dialogue}

theorem step_client {point : ClientAt} {messages : List Bytes} {session : Session (List Bytes)}
    (h : client name s.client.point s.client.session = (.returns (point, messages), session)) :
    step env name s .client =
      some ⟨⟨point, session, s.client.sent ++ messages⟩, s.server.receive messages⟩ := by
  rw [step, h]

theorem step_server {point : ServerAt} {messages : List Bytes}
    {session : Session (Table.Connection Db)}
    (h : server env s.server.point s.server.session = (.returns (point, messages), session)) :
    step env name s .server =
      some ⟨s.client.receive messages, ⟨point, session, s.server.sent ++ messages⟩⟩ := by
  rw [step, h]

theorem step_server_throws {what : String} {session : Session (Table.Connection Db)}
    (h : server env s.server.point s.server.session = (.throws what, session)) :
    step env name s .server = some ⟨s.client.hangUp, ⟨.failed, session, s.server.sent⟩⟩ := by
  rw [step, h]

theorem step_server_waits (h : (server env s.server.point s.server.session).1 = .waits) :
    step env name s .server = none := by
  cases hrun : server env s.server.point s.server.session with
  | mk outcome session =>
    rw [hrun] at h
    subst h
    rw [step, hrun]

end Steps

end BackupManager.Protocol.Login
