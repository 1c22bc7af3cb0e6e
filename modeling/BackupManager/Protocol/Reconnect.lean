import BackupManager.Protocol.RequestStream
import BackupManager.Server.View
import BackupManager.Transition.Run

/-! A client that has lost its session and opened another: two handlers store what it sent before and
what it sends now, each on its own, in one table. -/
namespace BackupManager.Protocol
open ByteStream Client Server Table Transition

/-- The path that an upload is about. -/
def Upload.path (u : Upload) : Bytes := u.message.cleanedPath

/-- An upload that is being stored: the day that was read, and what `checkKeyExist` has said. -/
structure Storing where
  upload : Upload
  day : Bytes
  keyExists : Bool
  deriving DecidableEq

/-- A handler: the uploads it has not read, and the one it is storing. -/
structure Handler where
  unread : List Upload
  storing : Option Storing
  deriving DecidableEq

/-- Which handler acts. -/
inductive Turn where
  | first
  | second
  deriving DecidableEq, Repr

structure Reconnect where
  table : UserTable
  today : Bytes
  first : Handler
  second : Handler
  /-- What `send_file_hash` has sent when the second session was opened. -/
  received : Option (Except String HashMap)
  /-- The uploads of the first session that were unread when it was lost, and those of the second. -/
  sent : List Upload
  /-- The paths of the uploads that the second handler has read. -/
  begun : List Bytes

inductive ReconnectEvent where
  | openSession
  | send (u : Upload)
  | midnight (day : Bytes)
  /-- The handler reads an upload, and asks whether its key exists. -/
  | look (turn : Turn)
  | write (turn : Turn)

/-- The second statement of `addAction`; where it throws, the table stays as it is. -/
def storeRow (table : UserTable) (keyExists : Bool) (r : Row) : UserTable :=
  if keyExists then updateRows table r else (insertRow table r).getD table

namespace Reconnect

def handler (s : Reconnect) : Turn → Handler
  | .first => s.first
  | .second => s.second

def setHandler (s : Reconnect) (turn : Turn) (h : Handler) : Reconnect :=
  match turn with
  | .first => { s with first := h }
  | .second => { s with second := h }

def look (s : Reconnect) (turn : Turn) : Option Reconnect :=
  match (s.handler turn).storing, (s.handler turn).unread with
  | none, u :: unread =>
    let storing : Storing := ⟨u, s.today, checkKeyExist s.table u.path s.today⟩
    let s' := s.setHandler turn ⟨unread, some storing⟩
    some (if turn = .second then { s' with begun := u.path :: s.begun } else s')
  | _, _ => none

def write (hash : Bytes → Bytes) (s : Reconnect) (turn : Turn) : Option Reconnect :=
  (s.handler turn).storing.map fun x =>
    { s.setHandler turn ⟨(s.handler turn).unread, none⟩ with
      table := storeRow s.table x.keyExists (x.upload.call hash x.day).row }

def step (hash : Bytes → Bytes) (s : Reconnect) : ReconnectEvent → Option Reconnect
  | .openSession =>
    if s.received.isNone then
      let entries := getInitailizationEntries (complete (selectInitialization s.table .deletePath))
      some { s with received := some entries }
    else none
  | .send u =>
    if s.received.isSome then
      some { s with
        second := { s.second with unread := s.second.unread ++ [u] }
        sent := s.sent ++ [u] }
    else none
  | .midnight day => if s.today ≤ day then some { s with today := day } else none
  | .look turn => s.look turn
  | .write turn => s.write hash turn

/-- The first session is lost with these uploads unread. -/
def lost (table : UserTable) (today : Bytes) (unread : List Upload) : Reconnect where
  table := table
  today := today
  first := ⟨unread, none⟩
  second := ⟨[], none⟩
  received := none
  sent := unread
  begun := []

/-- Both handlers have consumed their input. -/
def Consumed (s : Reconnect) : Prop := s.first = ⟨[], none⟩ ∧ s.second = ⟨[], none⟩

/-- The uploads on a path. -/
def onPath (p : Bytes) (uploads : List Upload) : List Upload := uploads.filter fun u => u.path = p

/-- The newest row of a path. -/
def Newest (table : UserTable) (p : Bytes) (r : Row) : Prop :=
  r ∈ table.rows ∧ r.filename = p ∧ ∀ r' ∈ table.rows, r'.filename = p → r'.timestamp ≤ r.timestamp

/-- The newest row of the path is that of the last upload on it; without one, it is as it was. -/
def Reflects (hash : Bytes → Bytes) (before : UserTable) (s : Reconnect) (p : Bytes) : Prop :=
  match (onPath p s.sent).getLast? with
  | none => ∀ r, Newest s.table p r ↔ Newest before p r
  | some u => ∃ day, Newest s.table p (u.call hash day).row

/-- The first handler writes on a path as long as the second has read nothing about it, or has more to
read about it. -/
def InOrder (s : Reconnect) : ReconnectEvent → Prop
  | .write .first => ∀ x ∈ s.first.storing, x.upload.path ∈ s.begun →
      x.upload.path ∈ s.second.unread.map Upload.path
  | _ => True

instance (s : Reconnect) : DecidablePred (InOrder s)
  | .write .first => inferInstanceAs (Decidable (∀ x ∈ s.first.storing, _ → _))
  | .write .second => inferInstanceAs (Decidable True)
  | .openSession => inferInstanceAs (Decidable True)
  | .send _ => inferInstanceAs (Decidable True)
  | .midnight _ => inferInstanceAs (Decidable True)
  | .look _ => inferInstanceAs (Decidable True)

/-- What of the state is about one path. -/
structure Slice where
  rows : Row → Prop
  first : List Upload
  firstStoring : Option Storing
  second : List Upload
  secondStoring : Option Storing
  sent : List Upload
  begun : Prop

def slice (s : Reconnect) (p : Bytes) : Slice where
  rows r := r ∈ s.table.rows ∧ r.filename = p
  first := onPath p s.first.unread
  firstStoring := s.first.storing.filter fun x => x.upload.path = p
  second := onPath p s.second.unread
  secondStoring := s.second.storing.filter fun x => x.upload.path = p
  sent := onPath p s.sent
  begun := p ∈ s.begun

namespace Slice

/-- `Reflects`, for the slice. -/
def Reflected (hash : Bytes → Bytes) (before : Row → Prop) (t : Slice) : Prop :=
  match t.sent.getLast? with
  | none => t.rows = before
  | some u => ∃ day, t.rows (u.call hash day).row ∧
      ∀ r, t.rows r → r.timestamp ≤ (u.call hash day).row.timestamp

/-- No row is of a later day, and what was asked about the key holds. -/
def Answered (t : Slice) (x : Storing) : Prop :=
  (∀ r, t.rows r → r.timestamp ≤ x.day) ∧ (x.keyExists = true ↔ ∃ r, t.rows r ∧ r.timestamp = x.day)

/-- The upload that is being stored, if there is one, is the last. -/
def Awaits (hash : Bytes → Bytes) (before : Row → Prop) (t : Slice) : Option Storing → Prop
  | none => t.Reflected hash before
  | some x => t.sent.getLast? = some x.upload ∧ t.Answered x

/-- Where the last upload on the path is. -/
def Tracks (hash : Bytes → Bytes) (before : Row → Prop) (t : Slice) : Prop :=
  if t.second ≠ [] then t.sent.getLast? = t.second.getLast?
  else (t.begun → t.Awaits hash before t.secondStoring) ∧
    (¬t.begun → if t.first ≠ [] then t.sent.getLast? = t.first.getLast?
      else t.Awaits hash before t.firstStoring)

end Slice

structure Invariant (hash : Bytes → Bytes) (before : UserTable) (s : Reconnect) : Prop where
  dated : ∀ r ∈ s.table.rows, r.timestamp ≤ s.today
  datedStoring : ∀ turn, ∀ x ∈ (s.handler turn).storing, x.day ≤ s.today
  begins : ∀ x ∈ s.second.storing, x.upload.path ∈ s.begun
  tracks : ∀ p, (s.slice p).Tracks hash fun r => r ∈ before.rows ∧ r.filename = p

section Rows

variable {hash : Bytes → Bytes} {table : UserTable} {keyExists : Bool} {c : AddAction} {r x : Row}
  {day : Bytes}

@[simp] theorem call_filename (u : Upload) : (u.call hash day).row.filename = u.path := by
  unfold Upload.call
  dsimp only
  split <;> rfl

@[simp] theorem call_day (u : Upload) : (u.call hash day).row.timestamp = day := by
  unfold Upload.call
  dsimp only
  split <;> rfl

theorem mem_insertRow {table' : UserTable} (h : insertRow table r = some table') :
    x ∈ table'.rows ↔ x ∈ table.rows ∨ x = r := by
  unfold insertRow at h
  split at h
  · exact absurd h (by simp)
  · rw [← Option.some.inj h, List.mem_append, List.mem_singleton]

/-- The rows of the other paths are left alone. -/
theorem storeRow_other (h : x.filename ≠ r.filename) :
    x ∈ (storeRow table keyExists r).rows ↔ x ∈ table.rows := by
  unfold storeRow
  split
  · unfold updateRows
    rw [List.mem_map]
    constructor
    · rintro ⟨y, hy, rfl⟩
      split at h
      case isTrue hkey => exact absurd hkey.1 h
      case isFalse hkey =>
        rw [if_neg hkey]
        exact hy
    · exact fun hx => ⟨x, hx, if_neg fun hkey => h hkey.1⟩
  · cases hinsert : insertRow table r with
    | none => rfl
    | some table' =>
      rw [Option.getD_some, mem_insertRow hinsert, or_iff_left]
      rintro rfl
      exact h rfl

theorem storeRow_dated (hday : ∀ x ∈ table.rows, x.timestamp ≤ day) (hr : r.timestamp ≤ day) :
    ∀ x ∈ (storeRow table keyExists r).rows, x.timestamp ≤ day := by
  intro x hx
  unfold storeRow at hx
  split at hx
  · obtain ⟨y, hy, rfl⟩ := List.mem_map.mp hx
    split
    · exact hday y hy
    · exact hday y hy
  · cases hinsert : insertRow table r with
    | none =>
      rw [hinsert] at hx
      exact hday x hx
    | some table' =>
      rw [hinsert, Option.getD_some, mem_insertRow hinsert] at hx
      rcases hx with hx | rfl
      · exact hday x hx
      · exact hr

/-- With a true answer about the key the two statements are `addAction`. -/
theorem addAction_storeRow (h : keyExists = checkKeyExist table c.filename c.timestamp) :
    addAction table c = some (storeRow table keyExists c.row) := by
  have hsome := addAction_isSome table c
  unfold addAction at hsome ⊢
  unfold storeRow
  rw [h]
  split at hsome
  case isTrue hkey => rw [if_pos hkey, if_pos hkey]
  case isFalse hkey =>
    obtain ⟨table', htable⟩ := Option.isSome_iff_exists.mp hsome
    rw [if_neg hkey, if_neg hkey, htable]
    rfl

/-- A row of the last day becomes the newest of its path. -/
theorem storeRow_newest (h : keyExists = checkKeyExist table c.filename c.timestamp)
    (hday : ∀ x ∈ table.rows, x.filename = c.filename → x.timestamp ≤ c.timestamp) :
    Newest (storeRow table keyExists c.row) c.filename c.row := by
  have hrows := addAction_rows (addAction_storeRow h)
  refine ⟨?_, rfl, fun x hx hname => ?_⟩
  · rw [hrows, mem_upsert]
    exact Or.inl rfl
  · rw [hrows, mem_upsert] at hx
    rcases hx with rfl | hx
    · exact le_refl _
    · exact hday x hx.1 hname

end Rows

namespace Slice

variable {hash : Bytes → Bytes} {before : Row → Prop} {t : Slice} {u : Upload}
  {uploads : List Upload} {x : Storing}

/-- The row of the upload is written. -/
def Written (hash : Bytes → Bytes) (rows : Row → Prop) (x : Storing) : Prop :=
  rows (x.upload.call hash x.day).row ∧
    ∀ r, rows r → r.timestamp ≤ (x.upload.call hash x.day).row.timestamp

theorem getLast?_cons_of_ne_nil (h : uploads ≠ []) : (u :: uploads).getLast? = uploads.getLast? := by
  obtain ⟨v, rest, rfl⟩ := List.exists_cons_of_ne_nil h
  rfl

theorem Tracks.look_first (h : t.Tracks hash before) (hfirst : t.first = x.upload :: uploads)
    (hanswered : t.Answered x) :
    Tracks hash before { t with first := uploads, firstStoring := some x } := by
  unfold Tracks at h ⊢
  dsimp only
  split at h
  case isTrue hsecond => rwa [if_pos hsecond]
  case isFalse hsecond =>
    rw [if_neg hsecond]
    refine ⟨h.1, fun hbegun => ?_⟩
    have hlast := h.2 hbegun
    rw [if_pos (by rw [hfirst]; exact List.cons_ne_nil _ _), hfirst] at hlast
    by_cases hrest : uploads = []
    · rw [if_neg (not_not.mpr hrest)]
      rw [hrest] at hlast
      exact ⟨hlast, hanswered⟩
    · rwa [if_pos hrest, ← getLast?_cons_of_ne_nil hrest]

theorem Tracks.look_second (h : t.Tracks hash before) (hsecond : t.second = x.upload :: uploads)
    (hanswered : t.Answered x) :
    Tracks hash before { t with second := uploads, secondStoring := some x, begun := True } := by
  unfold Tracks at h ⊢
  dsimp only
  rw [if_pos (by rw [hsecond]; exact List.cons_ne_nil _ _), hsecond] at h
  by_cases hrest : uploads = []
  · rw [if_neg (not_not.mpr hrest)]
    rw [hrest] at h
    exact ⟨fun _ => ⟨h, hanswered⟩, fun hbegun => absurd trivial hbegun⟩
  · rwa [if_pos hrest, ← getLast?_cons_of_ne_nil hrest]

/-- What is written last is reflected. -/
theorem Awaits.written {rows : Row → Prop} (h : t.Awaits hash before (some x))
    (hwritten : t.Answered x → Written hash rows x) {t' : Slice} (hrows : t'.rows = rows)
    (hsent : t'.sent = t.sent) : t'.Reflected hash before := by
  unfold Reflected
  rw [hrows, hsent, h.1]
  exact ⟨x.day, hwritten h.2⟩

theorem Tracks.write_first (h : t.Tracks hash before) (hstoring : t.firstStoring = some x)
    (horder : t.begun → t.second ≠ []) {rows : Row → Prop}
    (hwritten : t.Answered x → Written hash rows x) :
    Tracks hash before { t with rows := rows, firstStoring := none } := by
  unfold Tracks at h ⊢
  dsimp only
  split at h
  case isTrue hsecond => rwa [if_pos hsecond]
  case isFalse hsecond =>
    rw [if_neg hsecond]
    refine ⟨fun hbegun => absurd (horder hbegun) hsecond, fun hbegun => ?_⟩
    have hlast := h.2 hbegun
    split at hlast
    case isTrue hfirst => rwa [if_pos hfirst]
    case isFalse hfirst =>
      rw [if_neg hfirst]
      rw [hstoring] at hlast
      exact hlast.written hwritten rfl rfl

theorem Tracks.write_second (h : t.Tracks hash before) (hstoring : t.secondStoring = some x)
    (hbegun : t.begun) {rows : Row → Prop} (hwritten : t.Answered x → Written hash rows x) :
    Tracks hash before { t with rows := rows, secondStoring := none } := by
  unfold Tracks at h ⊢
  dsimp only
  split at h
  case isTrue hsecond => rwa [if_pos hsecond]
  case isFalse hsecond =>
    rw [if_neg hsecond]
    refine ⟨fun _ => ?_, fun hno => absurd hbegun hno⟩
    have hlast := h.1 hbegun
    rw [hstoring] at hlast
    exact hlast.written hwritten rfl rfl

theorem tracks_send (t : Slice) (u : Upload) :
    Tracks hash before { t with second := t.second ++ [u], sent := t.sent ++ [u] } := by
  unfold Tracks
  dsimp only
  rw [if_pos (by simp), List.getLast?_append, List.getLast?_append]
  rfl

/-- When both handlers are done the last upload is reflected. -/
theorem Tracks.reflected (h : t.Tracks hash before) (hfirst : t.first = [])
    (hfirstStoring : t.firstStoring = none) (hsecond : t.second = [])
    (hsecondStoring : t.secondStoring = none) : t.Reflected hash before := by
  unfold Tracks at h
  rw [if_neg (not_not.mpr hsecond), if_neg (not_not.mpr hfirst), hfirstStoring,
    hsecondStoring] at h
  by_cases hbegun : t.begun
  · exact h.1 hbegun
  · exact h.2 hbegun

end Slice

section Steps

variable {hash : Bytes → Bytes} {before : UserTable} {s s' : Reconnect} {p : Bytes} {u : Upload}
  {uploads : List Upload} {x : Storing}

theorem onPath_cons_self (uploads : List Upload) (u : Upload) :
    onPath u.path (u :: uploads) = u :: onPath u.path uploads := by
  simp [onPath]

theorem onPath_cons_of_ne (h : u.path ≠ p) : onPath p (u :: uploads) = onPath p uploads := by
  simp [onPath, h]

theorem onPath_append (uploads : List Upload) (u : Upload) :
    onPath p (uploads ++ [u]) = onPath p uploads ++ onPath p [u] := List.filter_append _ _

theorem onPath_ne_nil (h : p ∈ uploads.map Upload.path) : onPath p uploads ≠ [] := by
  obtain ⟨u, hu, rfl⟩ := List.mem_map.mp h
  exact List.ne_nil_of_mem (List.mem_filter.mpr ⟨hu, by simp⟩)

/-- What the slice of its path says when a handler has looked. -/
theorem Invariant.answered (h : s.Invariant hash before) (u : Upload) :
    (s.slice u.path).Answered ⟨u, s.today, checkKeyExist s.table u.path s.today⟩ := by
  constructor
  · exact fun r hr => h.dated r hr.1
  · dsimp only
    rw [checkKeyExist_iff]
    constructor
    · rintro ⟨r, hr, hname, hday⟩
      exact ⟨r, ⟨hr, hname⟩, hday⟩
    · rintro ⟨r, ⟨hr, hname⟩, hday⟩
      exact ⟨r, hr, hname, hday⟩

/-- A write with a true answer, for the slice of its path. -/
theorem written_storeRow {t : Slice} {table : UserTable}
    (ht : t.rows = fun r => r ∈ table.rows ∧ r.filename = x.upload.path) (h : t.Answered x) :
    Slice.Written hash (fun r => r ∈ (storeRow table x.keyExists
      (x.upload.call hash x.day).row).rows ∧ r.filename = x.upload.path) x := by
  have hname : (x.upload.call hash x.day).filename = x.upload.path := call_filename x.upload
  have hday : (x.upload.call hash x.day).timestamp = x.day := call_day x.upload
  unfold Slice.Answered at h
  rw [ht] at h
  have hkey : x.keyExists = checkKeyExist table (x.upload.call hash x.day).filename
      (x.upload.call hash x.day).timestamp := by
    rw [Bool.eq_iff_iff, h.2, checkKeyExist_iff, hname, hday]
    constructor
    · rintro ⟨r, ⟨hr, hname⟩, hday⟩
      exact ⟨r, hr, hname, hday⟩
    · rintro ⟨r, hr, hname, hday⟩
      exact ⟨r, ⟨hr, hname⟩, hday⟩
  have hnewest := storeRow_newest hkey fun y hy hy' => by
    rw [hday]
    exact h.1 y ⟨hy, hy'.trans hname⟩
  rw [hname] at hnewest
  exact ⟨⟨hnewest.1, hnewest.2.1⟩, fun r hr => hnewest.2.2 r hr.1 hr.2⟩

theorem filter_storing_self : (some x).filter (fun y => y.upload.path = x.upload.path) = some x :=
  Option.filter_some_pos (by simp)

theorem filter_storing_of_ne (h : x.upload.path ≠ p) :
    (some x).filter (fun y => y.upload.path = p) = none :=
  Option.filter_some_neg (by simpa using h)

/-- The first handler reads an upload. -/
theorem Invariant.look_first (h : s.Invariant hash before) {unread : List Upload}
    (hunread : s.first.unread = x.upload :: unread) (hstoring : s.first.storing = none)
    (hx : x = ⟨x.upload, s.today, checkKeyExist s.table x.upload.path s.today⟩) :
    Invariant hash before { s with first := ⟨unread, some x⟩ } := by
  have hanswered := h.answered x.upload
  rw [← hx] at hanswered
  constructor
  case dated => exact h.dated
  case datedStoring =>
    intro turn y hy
    cases turn with
    | first =>
      rw [← Option.some.inj hy, hx]
    | second => exact h.datedStoring .second y hy
  case begins => exact h.begins
  case tracks =>
    intro p
    have htracks := h.tracks p
    by_cases hp : x.upload.path = p
    · subst hp
      have hfirst : (s.slice x.upload.path).first = x.upload :: onPath x.upload.path unread := by
        rw [slice, hunread, onPath_cons_self]
      have hslice : slice { s with first := ⟨unread, some x⟩ } x.upload.path =
          { s.slice x.upload.path with
            first := onPath x.upload.path unread
            firstStoring := some x } := by
        unfold slice
        rw [filter_storing_self]
      rw [hslice]
      exact htracks.look_first hfirst hanswered
    · have hslice : slice { s with first := ⟨unread, some x⟩ } p = s.slice p := by
        unfold slice
        rw [hunread, hstoring, onPath_cons_of_ne hp, filter_storing_of_ne hp]
        rfl
      rwa [hslice]

/-- The second handler reads an upload. -/
theorem Invariant.look_second (h : s.Invariant hash before) {unread : List Upload}
    (hunread : s.second.unread = x.upload :: unread) (hstoring : s.second.storing = none)
    (hx : x = ⟨x.upload, s.today, checkKeyExist s.table x.upload.path s.today⟩) :
    Invariant hash before
      { s with second := ⟨unread, some x⟩, begun := x.upload.path :: s.begun } := by
  have hanswered := h.answered x.upload
  rw [← hx] at hanswered
  constructor
  case dated => exact h.dated
  case datedStoring =>
    intro turn y hy
    cases turn with
    | first => exact h.datedStoring .first y hy
    | second =>
      rw [← Option.some.inj hy, hx]
  case begins =>
    intro y hy
    rw [← Option.some.inj hy]
    exact List.mem_cons_self
  case tracks =>
    intro p
    have htracks := h.tracks p
    by_cases hp : x.upload.path = p
    · subst hp
      have hsecond : (s.slice x.upload.path).second =
          x.upload :: onPath x.upload.path unread := by
        rw [slice, hunread, onPath_cons_self]
      have hslice : slice { s with
            second := ⟨unread, some x⟩, begun := x.upload.path :: s.begun } x.upload.path =
          { s.slice x.upload.path with
            second := onPath x.upload.path unread
            secondStoring := some x
            begun := True } := by
        unfold slice
        rw [filter_storing_self]
        simp
      rw [hslice]
      exact htracks.look_second hsecond hanswered
    · have hslice : slice { s with
            second := ⟨unread, some x⟩, begun := x.upload.path :: s.begun } p = s.slice p := by
        unfold slice
        rw [hunread, hstoring, onPath_cons_of_ne hp, filter_storing_of_ne hp]
        simp [Ne.symm hp]
      rwa [hslice]

theorem Invariant.look (h : s.Invariant hash before) {turn : Turn}
    (hstep : s.look turn = some s') : s'.Invariant hash before := by
  unfold Reconnect.look at hstep
  split at hstep
  case h_2 => exact absurd hstep (by simp)
  case h_1 u unread hstoring hunread =>
    cases turn with
    | first =>
      obtain rfl := Option.some.inj hstep
      exact h.look_first (x := ⟨u, s.today, checkKeyExist s.table u.path s.today⟩) hunread hstoring rfl
    | second =>
      obtain rfl := Option.some.inj hstep
      exact h.look_second (x := ⟨u, s.today, checkKeyExist s.table u.path s.today⟩) hunread hstoring rfl

/-- The rows of a path after a write. -/
theorem rows_storeRow {q : Bytes} (hq : x.upload.path ≠ q) (table : UserTable) :
    (fun r => r ∈ (storeRow table x.keyExists (x.upload.call hash x.day).row).rows ∧
      r.filename = q) = fun r => r ∈ table.rows ∧ r.filename = q := by
  funext r
  rw [eq_iff_iff, and_congr_left_iff]
  intro hr
  apply storeRow_other
  rw [hr, call_filename]
  exact hq.symm

theorem Invariant.dated_storeRow (h : s.Invariant hash before) (turn : Turn)
    (hstoring : (s.handler turn).storing = some x) :
    ∀ r ∈ (storeRow s.table x.keyExists (x.upload.call hash x.day).row).rows,
      r.timestamp ≤ s.today := by
  apply storeRow_dated h.dated
  rw [call_day]
  exact h.datedStoring turn x hstoring

theorem Invariant.write_first (h : s.Invariant hash before) (hstoring : s.first.storing = some x)
    (horder : x.upload.path ∈ s.begun → x.upload.path ∈ s.second.unread.map Upload.path) :
    Invariant hash before { s with
      first := ⟨s.first.unread, none⟩
      table := storeRow s.table x.keyExists (x.upload.call hash x.day).row } := by
  constructor
  case dated => exact h.dated_storeRow .first hstoring
  case datedStoring =>
    intro turn y hy
    cases turn with
    | first => exact absurd hy (by simp [handler])
    | second => exact h.datedStoring .second y hy
  case begins => exact h.begins
  case tracks =>
    intro p
    have htracks := h.tracks p
    by_cases hp : x.upload.path = p
    · subst hp
      have hfirst : (s.slice x.upload.path).firstStoring = some x := by
        rw [slice, hstoring, filter_storing_self]
      exact htracks.write_first hfirst (fun hbegun => onPath_ne_nil (horder hbegun))
        (written_storeRow rfl)
    · have hslice : slice { s with
            first := ⟨s.first.unread, none⟩
            table := storeRow s.table x.keyExists (x.upload.call hash x.day).row } p =
          s.slice p := by
        unfold slice
        rw [rows_storeRow hp, hstoring, filter_storing_of_ne hp]
        rfl
      rwa [hslice]

theorem Invariant.write_second (h : s.Invariant hash before) (hstoring : s.second.storing = some x) :
    Invariant hash before { s with
      second := ⟨s.second.unread, none⟩
      table := storeRow s.table x.keyExists (x.upload.call hash x.day).row } := by
  constructor
  case dated => exact h.dated_storeRow .second hstoring
  case datedStoring =>
    intro turn y hy
    cases turn with
    | first => exact h.datedStoring .first y hy
    | second => exact absurd hy (by simp [handler])
  case begins => exact fun y hy => absurd hy (by simp)
  case tracks =>
    intro p
    have htracks := h.tracks p
    by_cases hp : x.upload.path = p
    · subst hp
      have hsecond : (s.slice x.upload.path).secondStoring = some x := by
        rw [slice, hstoring, filter_storing_self]
      exact htracks.write_second hsecond (h.begins x hstoring) (written_storeRow rfl)
    · have hslice : slice { s with
            second := ⟨s.second.unread, none⟩
            table := storeRow s.table x.keyExists (x.upload.call hash x.day).row } p =
          s.slice p := by
        unfold slice
        rw [rows_storeRow hp, hstoring, filter_storing_of_ne hp]
        rfl
      rwa [hslice]

theorem Invariant.send (h : s.Invariant hash before) (u : Upload) :
    Invariant hash before { s with
      second := { s.second with unread := s.second.unread ++ [u] }
      sent := s.sent ++ [u] } := by
  refine ⟨h.dated, fun turn y hy => ?_, h.begins, fun p => ?_⟩
  · cases turn with
    | first => exact h.datedStoring .first y hy
    | second => exact h.datedStoring .second y hy
  · by_cases hp : u.path = p
    · subst hp
      have hslice : slice { s with
            second := { s.second with unread := s.second.unread ++ [u] }
            sent := s.sent ++ [u] } u.path =
          { s.slice u.path with
            second := (s.slice u.path).second ++ [u]
            sent := (s.slice u.path).sent ++ [u] } := by
        unfold slice
        rw [onPath_append, onPath_append, onPath_cons_self]
        rfl
      rw [hslice]
      exact Slice.tracks_send (s.slice u.path) u
    · have hslice : slice { s with
            second := { s.second with unread := s.second.unread ++ [u] }
            sent := s.sent ++ [u] } p = s.slice p := by
        unfold slice
        rw [onPath_append, onPath_append, onPath_cons_of_ne hp]
        simp [onPath]
      rw [hslice]
      exact h.tracks p

theorem Invariant.step (h : s.Invariant hash before) {e : ReconnectEvent} (horder : InOrder s e)
    (hstep : s.step hash e = some s') : s'.Invariant hash before := by
  cases e with
  | openSession =>
    rw [Reconnect.step, Option.ite_none_right_eq_some] at hstep
    obtain rfl := Option.some.inj hstep.2
    refine ⟨h.dated, fun turn => ?_, h.begins, h.tracks⟩
    cases turn with
    | first => exact h.datedStoring .first
    | second => exact h.datedStoring .second
  | send u =>
    rw [Reconnect.step, Option.ite_none_right_eq_some] at hstep
    obtain rfl := Option.some.inj hstep.2
    exact h.send u
  | midnight day =>
    rw [Reconnect.step, Option.ite_none_right_eq_some] at hstep
    obtain rfl := Option.some.inj hstep.2
    refine ⟨fun r hr => (h.dated r hr).trans hstep.1, fun turn x hx => ?_, h.begins, h.tracks⟩
    cases turn with
    | first => exact (h.datedStoring .first x hx).trans hstep.1
    | second => exact (h.datedStoring .second x hx).trans hstep.1
  | look turn => exact h.look hstep
  | write turn =>
    obtain ⟨x, hstoring, rfl⟩ := Option.map_eq_some_iff.mp hstep
    cases turn with
    | first => exact h.write_first hstoring (horder x hstoring)
    | second => exact h.write_second hstoring

end Steps

theorem invariant_lost {hash : Bytes → Bytes} {table : UserTable} {today : Bytes}
    {unread : List Upload} (hdated : ∀ r ∈ table.rows, r.timestamp ≤ today) :
    (lost table today unread).Invariant hash table := by
  refine ⟨hdated, fun turn x hx => ?_, fun x hx => absurd hx (by simp [lost]), fun p => ?_⟩
  · cases turn with
    | first => exact absurd hx (by simp [lost, handler])
    | second => exact absurd hx (by simp [lost, handler])
  · unfold Slice.Tracks
    rw [if_neg (by simp [slice, lost, onPath])]
    refine ⟨fun hbegun => absurd hbegun (by simp [slice, lost]), fun _ => ?_⟩
    split
    case isTrue => rfl
    case isFalse hfirst =>
      have hnil : onPath p unread = [] := not_not.mp hfirst
      show Slice.Reflected _ _ _
      unfold Slice.Reflected
      have hsent : ((lost table today unread).slice p).sent = [] := hnil
      rw [hsent]
      rfl

theorem newest_iff {table : UserTable} {p : Bytes} {r : Row} :
    Newest table p r ↔ (r ∈ table.rows ∧ r.filename = p) ∧
      ∀ r', r' ∈ table.rows ∧ r'.filename = p → r'.timestamp ≤ r.timestamp := by
  unfold Newest
  simp only [and_imp, and_assoc]

theorem reflects_of_invariant {hash : Bytes → Bytes} {before : UserTable} {s : Reconnect}
    (h : s.Invariant hash before) (hconsumed : s.Consumed) (p : Bytes) : s.Reflects hash before p := by
  have hreflected : (s.slice p).Reflected hash fun r => r ∈ before.rows ∧ r.filename = p := by
    apply (h.tracks p).reflected
    all_goals simp [slice, hconsumed.1, hconsumed.2, onPath]
  unfold Slice.Reflected at hreflected
  unfold Reflects
  have hsent : (s.slice p).sent = onPath p s.sent := rfl
  rw [hsent] at hreflected
  cases hlast : (onPath p s.sent).getLast? with
  | none =>
    rw [hlast] at hreflected
    intro r
    have hrows (r : Row) : (r ∈ s.table.rows ∧ r.filename = p) ↔ (r ∈ before.rows ∧ r.filename = p) :=
      iff_of_eq (congrFun hreflected r)
    rw [newest_iff, newest_iff]
    simp only [hrows]
  | some u =>
    rw [hlast] at hreflected
    obtain ⟨day, ⟨hmem, hname⟩, hnewest⟩ := hreflected
    exact ⟨day, hmem, hname, fun r hr hr' => hnewest r ⟨hr, hr'⟩⟩

/-- A reconnect brings back no stale data, in a run in which the first handler comes to write about a
path before the second is done with it. -/
theorem reconnect (hash : Bytes → Bytes) (table : UserTable) (today : Bytes)
    (hdated : ∀ r ∈ table.rows, r.timestamp ≤ today) (unread : List Upload)
    (events : List ReconnectEvent) (s : Reconnect)
    (horder : Meets (step hash) InOrder (lost table today unread) events)
    (hrun : run (step hash) (lost table today unread) events = some s) :
    s.Consumed → ∀ p, s.Reflects hash table p :=
  fun hconsumed p => reflects_of_invariant
    (run_invariant (fun _ _ _ h hgood hstep => h.step hgood hstep) (invariant_lost hdated) horder
      hrun) hconsumed p

section Samples

/-- The file `/a` with this content. -/
def fileUpload (content : Bytes) : Upload := ⟨⟨.readFile, 0, [47, 97], blank, blank⟩, content⟩

/-- The second session sends a newer content; the handler of the first reads the older one first, or
last. -/
def olderFirst : List ReconnectEvent :=
  [.openSession, .look .first, .send (fileUpload [2]), .write .first, .look .second, .write .second]

def olderLast : List ReconnectEvent :=
  [.openSession, .send (fileUpload [2]), .look .second, .write .second, .look .first, .write .first]

def afterRun (events : List ReconnectEvent) : Reconnect :=
  (run (step id) (lost .empty [50] [fileUpload [1]]) events).getD (lost .empty [] [])

theorem reconnect_older_first :
    (afterRun olderFirst).Reflects id .empty [47, 97] :=
  reconnect id .empty [50] (by simp [UserTable.empty]) [fileUpload [1]] olderFirst
    (afterRun olderFirst) (by decide) rfl ⟨rfl, rfl⟩ [47, 97]

/-- The table was empty when the second session was opened, and the older content is stored in the
end. -/
theorem reconnect_older_last :
    ∃ s, run (step id) (lost .empty [50] [fileUpload [1]]) olderLast = some s ∧ s.Consumed ∧
      s.received = some (.ok .empty) ∧ ¬s.Reflects id .empty [47, 97] := by
  refine ⟨afterRun olderLast, rfl, ⟨rfl, rfl⟩, rfl, ?_⟩
  rintro ⟨day, hmem, -⟩
  have hrows : (afterRun olderLast).table.rows = [((fileUpload [1]).call id [50]).row] := rfl
  rw [hrows, List.mem_singleton] at hmem
  exact absurd (congrArg Row.file hmem) (by decide : ([2] : Bytes) ≠ [1])

end Samples

end Reconnect
end BackupManager.Protocol
