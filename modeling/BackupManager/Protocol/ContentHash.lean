import BackupManager.Client.ChangingFile
import BackupManager.Client.FileWatcher
import BackupManager.Digest.Streaming
import BackupManager.Protocol.RequestStream
import BackupManager.Server.RowDecoding

/-! A file and its hash on both ends: `Hash` of the client reads the file in pieces, `Hash` of the server
takes the bytes that it has received at once. -/
namespace BackupManager
open ByteStream Digest

variable {Ctx : Type}

/-- The calls with which both constructors begin. -/
def Digest.Evp.start (evp : Evp Ctx) : Except String Ctx := do
  let mdCtx ← orThrow "computing hash error, EVP_MD_CTX_new()" evp.new
  let mdCtx ← orThrow "computing hash error, EVP_MD_CTX_init()" (evp.init mdCtx)
  orThrow "computing hash error, EVP_DigestInit()" (evp.digestInit mdCtx)

def Digest.Evp.update (evp : Evp Ctx) (mdCtx : Ctx) (data : Bytes) : Except String Ctx :=
  orThrow "computing hash error, EVP_DigestUpdate()" (evp.digestUpdate mdCtx data)

def Digest.Evp.finish (evp : Evp Ctx) (mdCtx : Ctx) : Except String Bytes :=
  orThrow "computing hash error, EVP_DigestFinal_ex()" (evp.digestFinal mdCtx)

/-- `Hash(blob_string)`: the bytes of `md_value`. -/
def Server.hash (evp : Evp Ctx) (blobString : Bytes) : Except String Bytes := do
  let mdCtx ← evp.start
  let mdCtx ← evp.update mdCtx blobString
  evp.finish mdCtx

namespace Client

def bufSize : ℕ := 1024

theorem bufSize_pos : 0 < bufSize := by decide

/-- `while (!myfile.eof())`. -/
def hashLoop (evp : Evp Ctx) (content : Bytes) (myfile : Ifstream) (mdCtx : Ctx) : Except String Ctx :=
  if myfile.eof then .ok mdCtx
  else
    match evp.update mdCtx (myfile.got bufSize content) with
    | .ok mdCtx => hashLoop evp content (myfile.read bufSize content) mdCtx
    | .error what => .error what
termination_by myfile.remaining content
decreasing_by
  next hgood => exact Ifstream.remaining_read bufSize_pos hgood

/-- `Hash(filename)`: the bytes of `md_value`. -/
def hash (evp : Evp Ctx) (file : Option Bytes) : Except String Bytes := do
  let content ← orThrow "Hash error, couldn't open input file" file
  let mdCtx ← evp.start
  let mdCtx ← hashLoop evp content .opened mdCtx
  evp.finish mdCtx

end Client

section Hashes

variable {evp : Evp Ctx} (hupdate : evp.Compositional)

include hupdate

theorem update_append (mdCtx : Ctx) (a b : Bytes) :
    (evp.update mdCtx a >>= fun mdCtx => evp.update mdCtx b) = evp.update mdCtx (a ++ b) := by
  unfold Evp.update
  rw [orThrow_bind, hupdate]

/-- The pieces of the loop add up to what was left of the file. -/
theorem hashLoop_eq {content : Bytes} {myfile : Ifstream} (hgood : myfile.eof = false) (mdCtx : Ctx) :
    Client.hashLoop evp content myfile mdCtx = evp.update mdCtx (content.drop myfile.position) := by
  have hbytes : ∀ myfile : Ifstream, content.drop myfile.position =
      myfile.got Client.bufSize content ++ content.drop (myfile.position + Client.bufSize) := by
    intro myfile
    rw [← List.drop_drop]
    exact (List.take_append_drop _ _).symm
  fun_induction Client.hashLoop evp content myfile mdCtx with
  | case1 myfile mdCtx heof =>
    rw [heof] at hgood
    cases hgood
  | case2 myfile mdCtx heof mdCtx' hupdated ih =>
    by_cases hfull : myfile.position + Client.bufSize ≤ content.length
    · have hread : myfile.read Client.bufSize content =
          ⟨myfile.position + Client.bufSize, Client.bufSize, false⟩ := Ifstream.read_full hfull
      rw [ih (by rw [hread]), hread, hbytes myfile, ← update_append hupdate, hupdated]
      rfl
    · have hlast : myfile.got Client.bufSize content = content.drop myfile.position :=
        Ifstream.got_short (Nat.le_of_lt (not_le.mp hfull))
      have hend : (myfile.read Client.bufSize content).eof = true :=
        Ifstream.eof_read Client.bufSize_pos (not_le.mp hfull)
      rw [← hlast, hupdated, Client.hashLoop, if_pos hend]
  | case3 myfile mdCtx heof what hfailed =>
    rw [hbytes myfile, ← update_append hupdate, hfailed]
    rfl

/-- Both constructors compute one digest, or fail at the same call. -/
theorem hash_eq (content : Bytes) : Client.hash evp (some content) = Server.hash evp content := by
  have hloop : Client.hashLoop evp content .opened = fun mdCtx => evp.update mdCtx content :=
    funext fun mdCtx => hashLoop_eq hupdate rfl mdCtx
  have hopened : Client.hash evp (some content) = (do
      let mdCtx ← evp.start
      let mdCtx ← Client.hashLoop evp content .opened mdCtx
      evp.finish mdCtx) := rfl
  rw [hopened, hloop]
  rfl

end Hashes

/-- `getHash()`, of either `Hash`. -/
def getHash (mdValue : Bytes) : Bytes := hexText mdValue

/-- With the length of a SHA-256 digest. -/
theorem isDigest_getHash {mdValue : Bytes} (h : mdValue.length = 32) :
    Server.IsDigest (getHash mdValue) := by
  refine ⟨?_, fun b hb => of_mem_hexText hb⟩
  rw [getHash, length_hexText, h]

theorem cString_getHash (mdValue : Bytes) : Server.cString (getHash mdValue) = getHash mdValue := by
  refine Server.cString_of_not_mem fun hzero => ?_
  exact absurd (of_mem_hexText hzero) (by decide)

namespace Protocol
open Client Server

/-- A file of this content that nobody writes to meanwhile: it is stored as it is, the next frame is left
as it is, and it is known again by its hash. -/
structure Agree (evp : Evp Ctx) (c : Bytes) : Prop where
  stored : ∃ rounds writes,
    ChangingFile.sendFile (ChangingFile.fixed c) rounds = some ⟨writes, none⟩ ∧
    ∀ (b : Backend) path index time lastWriteTime permissions next closed trace,
      (Server.hash evp c).map getHash = .ok (b.hash c) →
      ∃ outcome call later, actionReadFile b path index time lastWriteTime permissions
          ⟨writes.flatten ++ next, closed, .fresh [], trace⟩ =
            (outcome, ⟨next, closed, .fresh [], trace ++ .addAction call :: later⟩) ∧
        ∀ table, ∃ table', addAction table call = some table' ∧ ∃ r ∈ table'.rows,
          r.filename = path ∧ r.timestamp = time ∧ r.file = c ∧ r.size = c.length ∧
            (Client.hash evp (some c)).map getHash = .ok r.hash
  hashed : Client.hash evp (some c) = Server.hash evp c
  told : ∀ mdValue mdValue', getHash mdValue = getHash mdValue' → mdValue = mdValue'
  /-- `init_status` finds nothing where the server holds the hash of `c`. -/
  quiet : ∀ {mainPath} (tree : Listing mainPath) order status hash p time known, order.Nodup →
    (∀ p, (status p).isSome = true → p ∈ order) → tree.find p = some ⟨time, some c⟩ →
    (Client.hash evp (some c)).map getHash = .ok (hash c) →
    (Server.hash evp c).map getHash = .ok known → status p = some (cString known) →
    ((Watching.initStatus hash tree order status).pushed.filter fun a => a.path = p) = []
  /-- It finds nothing only for the same digest. -/
  noticed : ∀ {mainPath} (tree : Listing mainPath) order status hash p time content mdValue mdValue',
    order.Nodup → (∀ p, (status p).isSome = true → p ∈ order) →
    tree.find p = some ⟨time, some content⟩ →
    Client.hash evp (some content) = .ok mdValue → hash content = getHash mdValue →
    Server.hash evp c = .ok mdValue' → status p = some (cString (getHash mdValue')) →
    ((Watching.initStatus hash tree order status).pushed.filter fun a => a.path = p) = [] →
    mdValue = mdValue'

/-- A file is left alone exactly where its hash is the one that the server holds. -/
theorem silent_iff {mainPath : Bytes} {tree : Listing mainPath} {order : List Bytes}
    {status : Bytes → Option Bytes} {hash : Bytes → Bytes} {p content known : Bytes} {time : ℤ}
    (hnodup : order.Nodup) (horder : ∀ p, (status p).isSome = true → p ∈ order)
    (hfind : tree.find p = some ⟨time, some content⟩) (hstatus : status p = some known) :
    ((Watching.initStatus hash tree order status).pushed.filter fun a => a.path = p) = [] ↔
      known = hash content := by
  have hevents := (@Watching.initStatus_apply mainPath hash tree p order hnodup status horder).2
  rw [hevents, hfind, hstatus, Watching.initEvent, Node.hashStr]
  by_cases hsame : known = hash content
  · simp [Watching.actionsOf, hsame]
  · simp [Watching.actionsOf, hsame]

theorem cString_of_getHash {mdValue : Except String Bytes} {known : Bytes}
    (h : mdValue.map getHash = .ok known) : cString known = known := by
  cases mdValue with
  | error what => cases h
  | ok mdValue => rw [← Except.ok.inj h, cString_getHash]

/-- Whatever the table holds, the call of `action_read_file` leaves a row with the whole file. -/
theorem addAction_readFileCall (hash : Bytes → Bytes)
    (path time lastWriteTime permissions content : Bytes) (table : UserTable) :
    ∃ table', addAction table
        (readFileCall hash path time lastWriteTime permissions content content.length) = some table' ∧
      ∃ r ∈ table'.rows, r.filename = path ∧ r.timestamp = time ∧ r.file = content ∧
        r.size = content.length ∧ r.hash = hash content := by
  obtain ⟨table', htable⟩ := Option.isSome_iff_exists.mp (addAction_isSome table
    (readFileCall hash path time lastWriteTime permissions content content.length))
  refine ⟨table', htable,
    (readFileCall hash path time lastWriteTime permissions content content.length).row, ?_, rfl, rfl,
    congrArg Row.file (AddAction.row_eq_wholeRow rfl), rfl, rfl⟩
  rw [addAction_rows htable]
  exact Table.mem_upsert.mpr (Or.inl rfl)

/-- Content and hash agree on both ends. -/
theorem content_and_hash (evp : Evp Ctx) (hupdate : evp.Compositional) (c : Bytes)
    (hsmall : c.length ≤ maxFileSize) : Agree evp c where
  stored := by
    obtain ⟨rounds, hsent⟩ := ChangingFile.sendFile_fixed c
    refine ⟨rounds, _, hsent, ?_⟩
    intro b path index time lastWriteTime permissions next closed trace hhash
    have hlt : c.length < 2147483647 := lt_of_le_of_lt hsmall (by decide)
    obtain ⟨outcome, later, hread⟩ := @actionReadFile_stores b next closed trace path index time
      lastWriteTime permissions c hlt
    have hbytes : (Client.sendFile c).flatten = field intMaxNDigit c.length ++ c := by
      rw [Client.sendFile, List.flatten_cons, flatten_pieces maxMsgSize_pos]
    rw [← hbytes] at hread
    refine ⟨outcome, _, later, hread, fun table => ?_⟩
    obtain ⟨table', htable, r, hr, hname, htime, hfile, hsize, hdigest⟩ :=
      addAction_readFileCall b.hash path time lastWriteTime permissions c table
    refine ⟨table', htable, r, hr, hname, htime, hfile, hsize, ?_⟩
    rw [hash_eq hupdate, hhash, hdigest]
  hashed := hash_eq hupdate c
  told := fun _ _ => hexText_injective
  quiet := by
    intro mainPath tree order status hash p time known hnodup horder hfind hclient hserver hstatus
    rw [hash_eq hupdate, hserver, Except.ok.injEq] at hclient
    rw [silent_iff hnodup horder hfind hstatus, cString_of_getHash hserver, hclient]
  noticed := by
    intro mainPath tree order status hash p time content mdValue mdValue' hnodup horder hfind hclient
      hhash hserver hstatus hsilent
    rw [silent_iff hnodup horder hfind hstatus, hhash, cString_getHash] at hsilent
    exact (hexText_injective hsilent).symm

/-- The text `abc`. -/
def abc : Bytes := [97, 98, 99]

/-- Its SHA-256 digest. -/
def abcDigest : Bytes :=
  [0xba, 0x78, 0x16, 0xbf, 0x8f, 0x01, 0xcf, 0xea, 0x41, 0x41, 0x40, 0xde, 0x5d, 0xae, 0x22, 0x23,
  0xb0, 0x03, 0x61, 0xa3, 0x96, 0x17, 0x7a, 0x9c, 0xb4, 0x10, 0xff, 0x61, 0xf2, 0x00, 0x15, 0xad]

/-- A context that keeps what it is fed, and knows one digest. -/
def abcEvp : Evp Bytes where
  new := some []
  init mdCtx := some mdCtx
  digestInit _ := some []
  digestUpdate mdCtx data := some (mdCtx ++ data)
  digestFinal mdCtx := if mdCtx = abc then some abcDigest else none

theorem content_and_hash_abc : abcEvp.Compositional ∧ abc.length ≤ maxFileSize ∧
    Server.hash abcEvp abc = .ok abcDigest ∧ Agree abcEvp abc := by
  have hupdate : abcEvp.Compositional := fun mdCtx a b => congrArg some (List.append_assoc mdCtx a b)
  have hsmall : abc.length ≤ maxFileSize := by decide
  exact ⟨hupdate, hsmall, rfl, content_and_hash abcEvp hupdate abc hsmall⟩

end Protocol
end BackupManager
