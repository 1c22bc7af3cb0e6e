import BackupManager.Protocol.SpoiledRound

/-! What a round of the loop finds in its stream: fields that are all read, whether or not they are what
was meant, or a first field that fails. -/
namespace BackupManager.Protocol
open ByteStream Client Server

/-- A size, and as many bytes as it announces with a line in them: the line, and what is left. -/
inductive LineReads (residue : Bytes) : Bytes → Bytes → Bytes → Prop where
  | intro {sizeText text mid line left : Bytes} {size : ℕ}
      (hsize : Reads numberWidth (Istream.getNumber Istream.toSizeT 0) residue sizeText size mid)
      (hline : Reads (lineCount size) Istream.lineAfterBreak mid text line left) :
      LineReads residue (sizeText ++ text) line left

/-- The size fails, or its line: what the line is then, and the bytes that are still taken for it. -/
inductive LineFails (residue : Bytes) : Bytes → Bytes → ℕ → Prop where
  | size {text : Bytes} {size : ℕ}
      (hsize : Fails numberWidth (Istream.getNumber Istream.toSizeT 0) residue text size) :
      LineFails residue text [] (lineCount size)
  | line {sizeText text mid line : Bytes} {size : ℕ}
      (hsize : Reads numberWidth (Istream.getNumber Istream.toSizeT 0) residue sizeText size mid)
      (hline : Fails (lineCount size) Istream.lineAfterBreak mid text line) :
      LineFails residue (sizeText ++ text) line 0

/-- Every field of the header is read. -/
inductive HeaderReads (uninit : ℤ) (residue : Bytes) : Bytes → Frame → Bytes → Prop where
  | intro {typeText indexText pathText timeText permissionsText : Bytes} {r₁ r₂ r₃ r₄ r₅ : Bytes}
      {t : ℕ} {i : ℤ} {path time permissions : Bytes}
      (htype : Reads numberWidth (Istream.getNumber Istream.toSizeT 0) residue typeText t r₁)
      (hindex : Reads numberWidth (Istream.getNumber Istream.toInt uninit) r₁ indexText i r₂)
      (hpath : LineReads r₂ pathText path r₃)
      (htime : LineReads r₃ timeText time r₄)
      (hpermissions : LineReads r₄ permissionsText permissions r₅) :
      HeaderReads uninit residue
        (typeText ++ (indexText ++ (pathText ++ (timeText ++ permissionsText))))
        ⟨t, i, path, time, permissions⟩ r₅

/-- A field of the header fails: the frame that is then put together, and the bytes that are still taken
for it. -/
inductive HeaderFails (uninit : ℤ) (residue : Bytes) : Bytes → Frame → ℕ → Prop where
  | actionType {text : Bytes} {t : ℕ}
      (htype : Fails numberWidth (Istream.getNumber Istream.toSizeT 0) residue text t) :
      HeaderFails uninit residue text ⟨t, uninit, [], [], []⟩
        (numberWidth + (lineWidth + (lineWidth + lineWidth)))
  | index {typeText text r₁ : Bytes} {t : ℕ} {i : ℤ}
      (htype : Reads numberWidth (Istream.getNumber Istream.toSizeT 0) residue typeText t r₁)
      (hindex : Fails numberWidth (Istream.getNumber Istream.toInt uninit) r₁ text i) :
      HeaderFails uninit residue (typeText ++ text) ⟨t, i, [], [], []⟩
        (lineWidth + (lineWidth + lineWidth))
  | path {typeText indexText text r₁ r₂ path : Bytes} {t : ℕ} {i : ℤ} {n : ℕ}
      (htype : Reads numberWidth (Istream.getNumber Istream.toSizeT 0) residue typeText t r₁)
      (hindex : Reads numberWidth (Istream.getNumber Istream.toInt uninit) r₁ indexText i r₂)
      (hpath : LineFails r₂ text path n) :
      HeaderFails uninit residue (typeText ++ (indexText ++ text)) ⟨t, i, path, [], []⟩
        (n + (lineWidth + lineWidth))
  | lastWriteTime {typeText indexText pathText text r₁ r₂ r₃ path time : Bytes} {t : ℕ} {i : ℤ} {n : ℕ}
      (htype : Reads numberWidth (Istream.getNumber Istream.toSizeT 0) residue typeText t r₁)
      (hindex : Reads numberWidth (Istream.getNumber Istream.toInt uninit) r₁ indexText i r₂)
      (hpath : LineReads r₂ pathText path r₃)
      (htime : LineFails r₃ text time n) :
      HeaderFails uninit residue (typeText ++ (indexText ++ (pathText ++ text)))
        ⟨t, i, path, time, []⟩ (n + lineWidth)
  | permissions {typeText indexText pathText timeText text r₁ r₂ r₃ r₄ path time permissions : Bytes}
      {t : ℕ} {i : ℤ} {n : ℕ}
      (htype : Reads numberWidth (Istream.getNumber Istream.toSizeT 0) residue typeText t r₁)
      (hindex : Reads numberWidth (Istream.getNumber Istream.toInt uninit) r₁ indexText i r₂)
      (hpath : LineReads r₂ pathText path r₃)
      (htime : LineReads r₃ timeText time r₄)
      (hpermissions : LineFails r₄ text permissions n) :
      HeaderFails uninit residue (typeText ++ (indexText ++ (pathText ++ (timeText ++ text))))
        ⟨t, i, path, time, permissions⟩ n

inductive Verdict where
  | stores
  /-- The loop goes on with what is left in the stream. -/
  | passes (left : Bytes)
  /-- The loop ends. -/
  | quits
  /-- A field fails: how many bytes later a row is stored, if ever. -/
  | spoils (untilRow : Option ℕ)

/-- What a round does with the bytes it begins with. -/
inductive Round (uninit : ℤ) (pastEnd : ℕ → Bool) (residue : Bytes) : Bytes → Verdict → Prop where
  | header {bytes : Bytes} {f : Frame} {n : ℕ} (hheader : HeaderFails uninit residue bytes f n) :
      Round uninit pastEnd residue bytes (.spoils ((untilStored uninit pastEnd f.actionType).map (n + ·)))
  | folder {bytes left : Bytes} {f : Frame} (hheader : HeaderReads uninit residue bytes f left)
      (htype : f.actionType = ActionType.createFolder.code) : Round uninit pastEnd residue bytes .stores
  | deletion {bytes left : Bytes} {f : Frame} (hheader : HeaderReads uninit residue bytes f left)
      (htype : f.actionType = ActionType.deletePath.code) : Round uninit pastEnd residue bytes .stores
  | quit {bytes left : Bytes} {f : Frame} (hheader : HeaderReads uninit residue bytes f left)
      (htype : f.actionType = ActionType.quit.code) : Round uninit pastEnd residue bytes .quits
  | unrecognized {bytes left : Bytes} {f : Frame} (hheader : HeaderReads uninit residue bytes f left)
      (htype : ActionType.ignore.code ≤ f.actionType) (hname : HasName pastEnd f.actionType) :
      Round uninit pastEnd residue bytes (.passes left)
  | nameless {bytes left : Bytes} {f : Frame} (hheader : HeaderReads uninit residue bytes f left)
      (htype : ActionType.ignore.code ≤ f.actionType) (hname : ¬HasName pastEnd f.actionType) :
      Round uninit pastEnd residue bytes .quits
  | fileSize {bytes sizeText mid : Bytes} {f : Frame} {v : ℤ}
      (hheader : HeaderReads uninit residue bytes f mid)
      (htype : f.actionType = ActionType.readFile.code)
      (hsize : Fails numberWidth Istream.numberAndBreak mid sizeText v) :
      Round uninit pastEnd residue (bytes ++ sizeText)
        (.spoils (some (if v < -1 ∨ v = Istream.intMax then blankRound else v.toNat)))
  | refused {bytes sizeText mid left : Bytes} {f : Frame} {v : ℤ}
      (hheader : HeaderReads uninit residue bytes f mid)
      (htype : f.actionType = ActionType.readFile.code)
      (hsize : Reads numberWidth Istream.numberAndBreak mid sizeText v left)
      (hroom : v < -1 ∨ v = Istream.intMax) :
      Round uninit pastEnd residue (bytes ++ sizeText) (.passes left)
  | file {bytes sizeText content mid left : Bytes} {f : Frame} {v : ℤ}
      (hheader : HeaderReads uninit residue bytes f mid)
      (htype : f.actionType = ActionType.readFile.code)
      (hsize : Reads numberWidth Istream.numberAndBreak mid sizeText v left)
      (hroom : ¬(v < -1 ∨ v = Istream.intMax)) (hcontent : content.length = v.toNat) :
      Round uninit pastEnd residue (bytes ++ (sizeText ++ content)) .stores
  | dateLength {bytes lengthText mid : Bytes} {f : Frame} {v : ℤ}
      (hheader : HeaderReads uninit residue bytes f mid)
      (htype : f.actionType = ActionType.restore.code)
      (hlength : Fails numberWidth (Istream.getNumber Istream.toInt uninit) mid lengthText v) :
      Round uninit pastEnd residue (bytes ++ lengthText)
        (.spoils (some (Prog.sizeOfInt (Prog.intSucc v) + blankRound)))
  | date {bytes lengthText dateText mid mid' date : Bytes} {f : Frame} {v : ℤ}
      (hheader : HeaderReads uninit residue bytes f mid)
      (htype : f.actionType = ActionType.restore.code)
      (hlength : Reads numberWidth (Istream.getNumber Istream.toInt uninit) mid lengthText v mid')
      (hdate : Fails (Prog.sizeOfInt (Prog.intSucc v)) (Istream.getWord []) mid' dateText date) :
      Round uninit pastEnd residue (bytes ++ (lengthText ++ dateText)) (.spoils (some blankRound))
  | restore {bytes lengthText dateText mid mid' date left : Bytes} {f : Frame} {v : ℤ}
      (hheader : HeaderReads uninit residue bytes f mid)
      (htype : f.actionType = ActionType.restore.code)
      (hlength : Reads numberWidth (Istream.getNumber Istream.toInt uninit) mid lengthText v mid')
      (hdate : Reads (Prog.sizeOfInt (Prog.intSucc v)) (Istream.getWord []) mid' dateText date left) :
      Round uninit pastEnd residue (bytes ++ (lengthText ++ dateText)) (.passes left)

theorem HeaderReads.pos {uninit : ℤ} {residue bytes left : Bytes} {f : Frame}
    (h : HeaderReads uninit residue bytes f left) : 0 < bytes.length := by
  obtain ⟨htype, -, -, -, -⟩ := h
  have hwidth := htype.width
  have hnumber : 0 < numberWidth := by decide
  rw [List.length_append]
  omega

/-- A round after which the loop goes on has taken bytes. -/
theorem Round.pos_of_passes {uninit : ℤ} {pastEnd : ℕ → Bool} {residue bytes left : Bytes}
    (h : Round uninit pastEnd residue bytes (.passes left)) : 0 < bytes.length := by
  cases h with
  | unrecognized hheader htype hname => exact hheader.pos
  | refused hheader htype hsize hroom =>
    have hpos := hheader.pos
    rw [List.length_append]
    omega
  | restore hheader htype hlength hdate =>
    have hpos := hheader.pos
    rw [List.length_append]
    omega

/-- What the loop does in a session from which a round takes all but `more`. -/
def Behaves (b : Backend) (s : Session (List Effect)) (more : Bytes) : Verdict → Prop
  | .stores => Stores b s
  | .passes left => ∃ trace, readAction b s =
      (.returns true, ⟨more, s.closed, .fresh left, trace⟩) ∧ calls trace = calls s.world
  | .quits => Idle b s
  | .spoils untilRow => ((∀ k ∈ untilRow, more.length < k) → Idle b s) ∧
      ∀ k ∈ untilRow, k ≤ more.length → Stores b s

section Header

variable {residue bytes wire line left : Bytes} {closed : Bool} {trace : List Effect} {n : ℕ}

theorem recvSize_reads {size : ℕ}
    (h : Reads numberWidth (Istream.getNumber Istream.toSizeT 0) residue bytes size left) :
    Prog.recvSize intMaxNDigit 0 ⟨bytes ++ wire, closed, .fresh residue, trace⟩ =
      (.returns size, ⟨wire, closed, .fresh left, trace⟩) :=
  Prog.recvBlock_reads h

theorem recvInt_reads {old v : ℤ}
    (h : Reads numberWidth (Istream.getNumber Istream.toInt old) residue bytes v left) :
    Prog.recvInt intMaxNDigit old ⟨bytes ++ wire, closed, .fresh residue, trace⟩ =
      (.returns v, ⟨wire, closed, .fresh left, trace⟩) :=
  Prog.recvBlock_reads h

theorem readSizedLine_reads (h : LineReads residue bytes line left) :
    readSizedLine ⟨bytes ++ wire, closed, .fresh residue, trace⟩ =
      (.returns line, ⟨wire, closed, .fresh left, trace⟩) := by
  obtain ⟨hsize, hline⟩ := h
  rw [readSizedLine, List.append_assoc, Prog.bind_of_returns (recvSize_reads hsize), Prog.recvLine_eq]
  exact Prog.recvBlock_reads hline

theorem spoils_lineFails (h : LineFails residue bytes line n) :
    Prog.Spoils readSizedLine ⟨bytes ++ wire, closed, .fresh residue, trace⟩ (bytes.length + n) line := by
  cases h with
  | size hsize =>
    exact Prog.Spoils.bind (Prog.spoils_recvBlock hsize) fun _ h => Prog.spoils_recvLine h _ []
  | @line sizeText text mid line size hsize hline =>
    rw [List.append_assoc]
    have hcount : sizeText.length + text.length = (sizeText ++ text).length + 0 := by
      rw [List.length_append]
      rfl
    apply Prog.Spoils.count _ hcount
    exact Prog.Spoils.of_returns rfl (recvSize_reads hsize) rfl rfl (Prog.spoils_recvBlock hline)

/-- The stream ends within a size or its line, or one of them fails, or both are read. -/
theorem readSizedLine_cases (residue wire : Bytes) :
    Prog.Short readSizedLine residue wire ∨
      (∃ bytes more line n, wire = bytes ++ more ∧ LineFails residue bytes line n) ∨
        ∃ bytes more line left, wire = bytes ++ more ∧ LineReads residue bytes line left := by
  obtain hshort | ⟨text, more, size, rfl, hsize⟩ | ⟨sizeText, more, size, mid, rfl, hsize⟩ :=
    Prog.recvBlock_cases numberWidth (Istream.getNumber Istream.toSizeT 0) residue wire
  · exact Or.inl ((Prog.short_recvBlock hshort).bind _)
  · exact Or.inr (Or.inl ⟨text, more, [], _, rfl, .size hsize⟩)
  obtain hshort | ⟨text, more, line, rfl, hline⟩ | ⟨text, more, line, left, rfl, hline⟩ :=
    Prog.recvBlock_cases (lineCount size) Istream.lineAfterBreak mid more
  · exact Or.inl (.after (fun _ _ => recvSize_reads hsize)
      (Prog.short_recvBlock (f := Istream.lineAfterBreak) hshort))
  · refine Or.inr (Or.inl ⟨sizeText ++ text, more, line, 0, ?_, .line hsize hline⟩)
    rw [List.append_assoc]
  · refine Or.inr (Or.inr ⟨sizeText ++ text, more, line, left, ?_, .intro hsize hline⟩)
    rw [List.append_assoc]

variable {b : Backend} {f : Frame}

theorem readFrame_reads (h : HeaderReads b.uninit residue bytes f left) :
    readFrame b ⟨bytes ++ wire, closed, .fresh residue, trace⟩ =
      (.returns f, ⟨wire, closed, .fresh left, trace⟩) := by
  obtain ⟨htype, hindex, hpath, htime, hpermissions⟩ := h
  simp only [List.append_assoc]
  rw [readFrame, Prog.bind_of_returns (recvSize_reads htype),
    Prog.bind_of_returns (recvInt_reads hindex), Prog.bind_of_returns (readSizedLine_reads hpath),
    Prog.bind_of_returns (readSizedLine_reads htime),
    Prog.bind_of_returns (readSizedLine_reads hpermissions)]
  rfl

theorem spoils_headerFails (h : HeaderFails b.uninit residue bytes f n) (wire : Bytes) (closed : Bool)
    (trace : List Effect) :
    Prog.Spoils (readFrame b) ⟨bytes ++ wire, closed, .fresh residue, trace⟩ (bytes.length + n) f := by
  cases h with
  | actionType htype =>
    exact Prog.Spoils.bind (Prog.spoils_recvBlock htype) fun _ h => spoils_readIndex h _
  | @index typeText text r₁ t i htype hindex =>
    have hcount : typeText.length + (text.length + (lineWidth + (lineWidth + lineWidth))) =
        (typeText ++ text).length + (lineWidth + (lineWidth + lineWidth)) := by
      rw [List.length_append]
      omega
    rw [List.append_assoc]
    apply Prog.Spoils.count _ hcount
    refine Prog.Spoils.of_returns rfl (recvSize_reads htype) rfl rfl ?_
    exact Prog.Spoils.bind (Prog.spoils_recvBlock hindex) fun _ h => spoils_readPath h t i
  | @path typeText indexText text r₁ r₂ path t i n htype hindex hpath =>
    have hcount : typeText.length + (indexText.length + (text.length + n + (lineWidth + lineWidth))) =
        (typeText ++ (indexText ++ text)).length + (n + (lineWidth + lineWidth)) := by
      simp only [List.length_append]
      omega
    simp only [List.append_assoc]
    apply Prog.Spoils.count _ hcount
    refine Prog.Spoils.of_returns rfl (recvSize_reads htype) rfl rfl ?_
    refine Prog.Spoils.of_returns rfl (recvInt_reads hindex) rfl rfl ?_
    exact Prog.Spoils.bind (spoils_lineFails hpath) fun _ h => spoils_readLastWriteTime h t i path
  | @lastWriteTime typeText indexText pathText text r₁ r₂ r₃ path time t i n htype hindex hpath htime =>
    have hcount : typeText.length + (indexText.length + (pathText.length +
        (text.length + n + lineWidth))) =
        (typeText ++ (indexText ++ (pathText ++ text))).length + (n + lineWidth) := by
      simp only [List.length_append]
      omega
    simp only [List.append_assoc]
    apply Prog.Spoils.count _ hcount
    refine Prog.Spoils.of_returns rfl (recvSize_reads htype) rfl rfl ?_
    refine Prog.Spoils.of_returns rfl (recvInt_reads hindex) rfl rfl ?_
    refine Prog.Spoils.of_returns rfl (readSizedLine_reads hpath) rfl rfl ?_
    exact Prog.Spoils.bind (spoils_lineFails htime) fun _ h => spoils_readPermissions h t i path time
  | @permissions typeText indexText pathText timeText text r₁ r₂ r₃ r₄ path time permissions t i n htype
      hindex hpath htime hpermissions =>
    have hcount : typeText.length + (indexText.length + (pathText.length + (timeText.length +
        (text.length + n + 0)))) =
        (typeText ++ (indexText ++ (pathText ++ (timeText ++ text)))).length + n := by
      simp only [List.length_append]
      omega
    simp only [List.append_assoc]
    apply Prog.Spoils.count _ hcount
    refine Prog.Spoils.of_returns rfl (recvSize_reads htype) rfl rfl ?_
    refine Prog.Spoils.of_returns rfl (recvInt_reads hindex) rfl rfl ?_
    refine Prog.Spoils.of_returns rfl (readSizedLine_reads hpath) rfl rfl ?_
    refine Prog.Spoils.of_returns rfl (readSizedLine_reads htime) rfl rfl ?_
    exact Prog.Spoils.bind (spoils_lineFails hpermissions) fun _ h => Prog.spoils_pure h _

/-- The stream ends within a header, or a field of it fails, or all are read. -/
theorem readFrame_cases (b : Backend) (residue wire : Bytes) :
    Prog.Short (readFrame b) residue wire ∨
      (∃ bytes more f n, wire = bytes ++ more ∧ HeaderFails b.uninit residue bytes f n) ∨
        ∃ bytes more f left, wire = bytes ++ more ∧ HeaderReads b.uninit residue bytes f left := by
  obtain hshort | ⟨text, more, t, rfl, htype⟩ | ⟨typeText, more, t, r₁, rfl, htype⟩ :=
    Prog.recvBlock_cases numberWidth (Istream.getNumber Istream.toSizeT 0) residue wire
  · exact Or.inl ((Prog.short_recvBlock hshort).bind _)
  · exact Or.inr (Or.inl ⟨text, more, _, _, rfl, .actionType htype⟩)
  obtain hshort | ⟨text, more, i, rfl, hindex⟩ | ⟨indexText, more, i, r₂, rfl, hindex⟩ :=
    Prog.recvBlock_cases numberWidth (Istream.getNumber Istream.toInt b.uninit) r₁ more
  · exact Or.inl (.after (fun _ _ => recvSize_reads htype) ((Prog.short_recvBlock hshort).bind _))
  · refine Or.inr (Or.inl ⟨_, more, _, _, ?_, .index htype hindex⟩)
    simp only [List.append_assoc]
  obtain hshort | ⟨text, more, path, n, rfl, hpath⟩ | ⟨pathText, more, path, r₃, rfl, hpath⟩ :=
    readSizedLine_cases r₂ more
  · exact Or.inl (.after (fun _ _ => recvSize_reads htype) <|
      .after (fun _ _ => recvInt_reads hindex) (hshort.bind _))
  · refine Or.inr (Or.inl ⟨_, more, _, _, ?_, .path htype hindex hpath⟩)
    simp only [List.append_assoc]
  obtain hshort | ⟨text, more, time, n, rfl, htime⟩ | ⟨timeText, more, time, r₄, rfl, htime⟩ :=
    readSizedLine_cases r₃ more
  · exact Or.inl (.after (fun _ _ => recvSize_reads htype) <|
      .after (fun _ _ => recvInt_reads hindex) <|
      .after (fun _ _ => readSizedLine_reads hpath) (hshort.bind _))
  · refine Or.inr (Or.inl ⟨_, more, _, _, ?_, .lastWriteTime htype hindex hpath htime⟩)
    simp only [List.append_assoc]
  obtain hshort | ⟨text, more, permissions, n, rfl, hlast⟩ |
      ⟨permissionsText, more, permissions, r₅, rfl, hlast⟩ := readSizedLine_cases r₄ more
  · exact Or.inl (.after (fun _ _ => recvSize_reads htype) <|
      .after (fun _ _ => recvInt_reads hindex) <|
      .after (fun _ _ => readSizedLine_reads hpath) <|
      .after (fun _ _ => readSizedLine_reads htime) (hshort.bind _))
  · refine Or.inr (Or.inl ⟨_, more, _, _, ?_, .permissions htype hindex hpath htime hlast⟩)
    simp only [List.append_assoc]
  · refine Or.inr (Or.inr ⟨_, more, _, _, ?_, .intro htype hindex hpath htime hlast⟩)
    simp only [List.append_assoc]

end Header
section Rounds

variable {b : Backend} {residue bytes more mid left : Bytes} {closed : Bool} {trace : List Effect}
  {f : Frame} {n : ℕ} {v : ℤ}

/-- A header that failed, and the bytes after it. -/
theorem behaves_header (h : HeaderFails b.uninit residue bytes f n) :
    Behaves b ⟨bytes ++ more, closed, .fresh residue, trace⟩ more
      (.spoils ((untilStored b.uninit b.pastEnd f.actionType).map (n + ·))) := by
  have hspoils := spoils_headerFails h more closed trace
  by_cases henough : n ≤ more.length
  · obtain ⟨stream, hbad, hrun⟩ := hspoils.enough (by rw [List.length_append]; omega)
    rw [← List.drop_drop, List.drop_left] at hrun
    have hrest := dispatch_broken (b := b) (f := f)
      (s := ⟨more.drop n, closed, stream, acknowledged trace f⟩) hbad
    rw [List.length_drop] at hrest
    constructor
    · intro hfew
      apply Idle.of_round
      apply idleAfter_frame hrun rfl
      apply hrest.1
      intro k hk
      have hlacking := hfew (n + k) (Option.mem_map_of_mem _ hk)
      omega
    · intro k hk hmany
      obtain ⟨k', hk', rfl⟩ := Option.mem_map.mp hk
      apply Stores.of_round
      apply storesAfter_frame hrun rfl
      exact hrest.2 k' hk' (by omega)
  · constructor
    · intro _
      apply Idle.of_round
      apply idleAfter_starved
      apply hspoils.lacking
      rw [List.length_append]
      omega
    · intro k hk hmany
      obtain ⟨k', -, rfl⟩ := Option.mem_map.mp hk
      omega

/-- The session after a header that was read. -/
def bodySession (wire : Bytes) (closed : Bool) (left : Bytes) (trace : List Effect) (f : Frame) :
    Session (List Effect) :=
  ⟨wire, closed, .fresh left, acknowledged trace f⟩

theorem idle_of_body (h : HeaderReads b.uninit residue bytes f left)
    (hbody : IdleAfter b (bodySession more closed left trace f)
      (dispatch b f (bodySession more closed left trace f))) :
    Idle b ⟨bytes ++ more, closed, .fresh residue, trace⟩ :=
  Idle.of_round (idleAfter_frame (readFrame_reads h) rfl hbody)

theorem stores_of_body (h : HeaderReads b.uninit residue bytes f left)
    (hbody : StoresAfter b (bodySession more closed left trace f)
      (dispatch b f (bodySession more closed left trace f))) :
    Stores b ⟨bytes ++ more, closed, .fresh residue, trace⟩ :=
  Stores.of_round (storesAfter_frame (readFrame_reads h) rfl hbody)

theorem readAction_body (h : HeaderReads b.uninit residue bytes f left) :
    readAction b ⟨bytes ++ more, closed, .fresh residue, trace⟩ =
      dispatch b f (bodySession more closed left trace f) := by
  have hframe : readFrame b ⟨bytes ++ more, closed, .fresh residue, trace⟩ =
      (.returns f, ⟨more, closed, .fresh left, trace⟩) := readFrame_reads h
  rw [readAction_of_frame hframe, bodySession]

theorem behaves_store (h : HeaderReads b.uninit residue bytes f left)
    (htype : f.actionType = ActionType.createFolder.code ∨
      f.actionType = ActionType.deletePath.code) :
    Behaves b ⟨bytes ++ more, closed, .fresh residue, trace⟩ more .stores := by
  obtain ⟨c, s₂, hrun, hcalls⟩ := dispatch_store b (bodySession more closed left trace f) htype
  apply stores_of_body h
  rw [hrun]
  exact ⟨rfl, Or.inl ⟨c, hcalls⟩⟩

theorem behaves_quit (h : HeaderReads b.uninit residue bytes f left)
    (htype : f.actionType = ActionType.quit.code) :
    Behaves b ⟨bytes ++ more, closed, .fresh residue, trace⟩ more .quits := by
  apply idle_of_body h
  rw [dispatch_quit b _ htype]
  exact ⟨rfl, by simp⟩

theorem behaves_unrecognized (h : HeaderReads b.uninit residue bytes f left)
    (htype : ActionType.ignore.code ≤ f.actionType) (hname : HasName b.pastEnd f.actionType) :
    Behaves b ⟨bytes ++ more, closed, .fresh residue, trace⟩ more (.passes left) := by
  refine ⟨acknowledged trace f ++ [.response f.index .error], ?_, ?_⟩
  · rw [readAction_body h, dispatch_unrecognized b _ htype hname]
    rfl
  · rw [calls_append, calls_acknowledged]
    exact List.append_nil _

theorem behaves_nameless (h : HeaderReads b.uninit residue bytes f left)
    (htype : ActionType.ignore.code ≤ f.actionType) (hname : ¬HasName b.pastEnd f.actionType) :
    Behaves b ⟨bytes ++ more, closed, .fresh residue, trace⟩ more .quits := by
  apply idle_of_body h
  rw [dispatch_nameless b _ htype hname]
  exact ⟨rfl, by simp⟩

theorem behaves_refused {sizeText : Bytes} (h : HeaderReads b.uninit residue bytes f mid)
    (htype : f.actionType = ActionType.readFile.code)
    (hsize : Reads numberWidth Istream.numberAndBreak mid sizeText v left)
    (hroom : v < -1 ∨ v = Istream.intMax) :
    Behaves b ⟨bytes ++ sizeText ++ more, closed, .fresh residue, trace⟩ more (.passes left) := by
  refine ⟨acknowledged trace f ++ [.response f.index .error], ?_, ?_⟩
  · rw [List.append_assoc, readAction_body h,
      dispatch_file_refused (s := bodySession _ _ _ _ _) htype (Prog.recvBlock_reads hsize) hroom]
  · rw [calls_append, calls_acknowledged]
    exact List.append_nil _

theorem behaves_file {sizeText content : Bytes} (h : HeaderReads b.uninit residue bytes f mid)
    (htype : f.actionType = ActionType.readFile.code)
    (hsize : Reads numberWidth Istream.numberAndBreak mid sizeText v left)
    (hroom : ¬(v < -1 ∨ v = Istream.intMax)) (hcontent : content.length = v.toNat) :
    Behaves b ⟨bytes ++ (sizeText ++ content) ++ more, closed, .fresh residue, trace⟩ more .stores := by
  have henough : v.toNat ≤ (content ++ more).length := by
    rw [List.length_append]
    omega
  obtain ⟨c, s₂, hrun, hcalls⟩ := dispatch_file_enough (b := b)
    (s := bodySession (sizeText ++ (content ++ more)) closed mid trace f) htype
    (Prog.recvBlock_reads hsize) rfl hroom henough
  rw [List.append_assoc, List.append_assoc]
  apply stores_of_body h
  rw [hrun]
  exact ⟨rfl, Or.inl ⟨c, hcalls⟩⟩

theorem calls_answered (trace : List Effect) (f : Frame) (status : ActionStatus) :
    calls (acknowledged trace f ++ [.response f.index status]) = calls (acknowledged trace f) := by
  rw [calls_append]
  exact List.append_nil _

/-- The size of a file fails: the file has the bytes that come, or is refused. -/
theorem behaves_fileSize {sizeText : Bytes} (h : HeaderReads b.uninit residue bytes f mid)
    (htype : f.actionType = ActionType.readFile.code)
    (hsize : Fails numberWidth Istream.numberAndBreak mid sizeText v) :
    Behaves b ⟨bytes ++ sizeText ++ more, closed, .fresh residue, trace⟩ more
      (.spoils (some (if v < -1 ∨ v = Istream.intMax then blankRound else v.toNat))) := by
  obtain ⟨stream, hbad, hrun⟩ := Prog.recvBlock_fails hsize more closed
    (acknowledged trace f)
  rw [List.append_assoc]
  by_cases hroom : v < -1 ∨ v = Istream.intMax
  · rw [if_pos hroom]
    have hdispatch := dispatch_file_refused (b := b)
      (s := bodySession (sizeText ++ more) closed mid trace f) htype hrun hroom
    have hround := broken_round (b := b)
      (s := ⟨more, closed, stream, acknowledged trace f ++ [.response f.index .error]⟩) hbad
    have hcalls := calls_answered trace f .error
    refine ⟨fun hfew => idle_of_body h ?_, fun k hk hmany => stores_of_body h ?_⟩
    · exact idleAfter_of_returns hdispatch hcalls (hround.1 (hfew _ rfl))
    · obtain rfl := Option.mem_some_iff.mp hk
      exact storesAfter_of_returns hdispatch hcalls (hround.2 hmany)
  · rw [if_neg hroom]
    refine ⟨fun hfew => idle_of_body h ?_, fun k hk hmany => stores_of_body h ?_⟩
    · exact dispatch_file_lacking htype hrun rfl hroom (hfew _ rfl)
    · obtain rfl := Option.mem_some_iff.mp hk
      obtain ⟨c, s₂, hdispatch, hcalls⟩ := dispatch_file_enough (b := b)
        (s := bodySession (sizeText ++ more) closed mid trace f) htype hrun rfl hroom hmany
      rw [hdispatch]
      exact ⟨rfl, Or.inl ⟨c, hcalls⟩⟩

/-- A round in which the database is asked about a date. -/
theorem dispatch_dateText {lengthText dateText mid' date : Bytes} {s₂ : Session (List Effect)}
    (htype : f.actionType = ActionType.restore.code)
    (hlength : Reads numberWidth (Istream.getNumber Istream.toInt b.uninit) mid lengthText v mid')
    (hdate : Prog.recvBlock (Prog.sizeOfInt (Prog.intSucc v)) (Istream.getWord [])
      (bodySession (dateText ++ more) closed mid' trace f) = (.returns date, s₂))
    (hworld : s₂.world = acknowledged trace f) :
    ∃ trace', calls trace' = calls (acknowledged trace f) ∧
      dispatch b f (bodySession (lengthText ++ (dateText ++ more)) closed mid trace f) =
        (.returns true, { s₂ with world := trace' }) := by
  obtain ⟨effects, hcalls, hrun⟩ := dispatch_date
    (s := bodySession (lengthText ++ (dateText ++ more)) closed mid trace f) htype
    (recvInt_reads hlength) hdate
  refine ⟨s₂.world ++ effects, ?_, hrun⟩
  rw [calls_append, hcalls, hworld, List.append_nil]

theorem behaves_restore {lengthText dateText mid' date : Bytes}
    (h : HeaderReads b.uninit residue bytes f mid)
    (htype : f.actionType = ActionType.restore.code)
    (hlength : Reads numberWidth (Istream.getNumber Istream.toInt b.uninit) mid lengthText v mid')
    (hdate : Reads (Prog.sizeOfInt (Prog.intSucc v)) (Istream.getWord []) mid' dateText date left) :
    Behaves b ⟨bytes ++ (lengthText ++ dateText) ++ more, closed, .fresh residue, trace⟩ more
      (.passes left) := by
  have hword : Prog.recvBlock (Prog.sizeOfInt (Prog.intSucc v)) (Istream.getWord [])
      (bodySession (dateText ++ more) closed mid' trace f) =
        (.returns date, bodySession more closed left trace f) := Prog.recvBlock_reads hdate
  obtain ⟨trace', hcalls, hrun⟩ := dispatch_dateText htype hlength hword rfl
  refine ⟨trace', ?_, hcalls.trans (calls_acknowledged trace f)⟩
  rw [List.append_assoc, List.append_assoc, readAction_body h, hrun, bodySession]

/-- The date fails: what follows is a round of which no field is read. -/
theorem behaves_date {lengthText dateText mid' date : Bytes}
    (h : HeaderReads b.uninit residue bytes f mid)
    (htype : f.actionType = ActionType.restore.code)
    (hlength : Reads numberWidth (Istream.getNumber Istream.toInt b.uninit) mid lengthText v mid')
    (hdate : Fails (Prog.sizeOfInt (Prog.intSucc v)) (Istream.getWord []) mid' dateText date) :
    Behaves b ⟨bytes ++ (lengthText ++ dateText) ++ more, closed, .fresh residue, trace⟩ more
      (.spoils (some blankRound)) := by
  obtain ⟨stream, hbad, hword⟩ := Prog.recvBlock_fails hdate more closed
    (acknowledged trace f)
  obtain ⟨trace', hcalls, hrun⟩ := dispatch_dateText htype hlength hword rfl
  have hround := broken_round (b := b) (s := ⟨more, closed, stream, trace'⟩) hbad
  rw [List.append_assoc, List.append_assoc]
  refine ⟨fun hfew => idle_of_body h ?_, fun k hk hmany => stores_of_body h ?_⟩
  · exact idleAfter_of_returns hrun hcalls (hround.1 (hfew _ rfl))
  · obtain rfl := Option.mem_some_iff.mp hk
    exact storesAfter_of_returns hrun hcalls (hround.2 hmany)

theorem behaves_dateLength {lengthText : Bytes} (h : HeaderReads b.uninit residue bytes f mid)
    (htype : f.actionType = ActionType.restore.code)
    (hlength : Fails numberWidth (Istream.getNumber Istream.toInt b.uninit) mid lengthText v) :
    Behaves b ⟨bytes ++ lengthText ++ more, closed, .fresh residue, trace⟩ more
      (.spoils (some (Prog.sizeOfInt (Prog.intSucc v) + blankRound))) := by
  obtain ⟨stream, hbad, hnumber⟩ := Prog.recvBlock_fails hlength more closed
    (acknowledged trace f)
  have hrest := dispatch_lostDate (b := b)
    (s := bodySession (lengthText ++ more) closed mid trace f) htype hnumber hbad rfl
  rw [List.append_assoc]
  refine ⟨fun hfew => idle_of_body h (hrest.1 (hfew _ rfl)), fun k hk hmany => ?_⟩
  obtain rfl := Option.mem_some_iff.mp hk
  exact stores_of_body h (hrest.2 hmany)

theorem behaves_of_round {verdict : Verdict} (h : Round b.uninit b.pastEnd residue bytes verdict) (more : Bytes)
    (closed : Bool) (trace : List Effect) :
    Behaves b ⟨bytes ++ more, closed, .fresh residue, trace⟩ more verdict := by
  cases h with
  | header hheader => exact behaves_header hheader
  | folder hheader htype => exact behaves_store hheader (Or.inl htype)
  | deletion hheader htype => exact behaves_store hheader (Or.inr htype)
  | quit hheader htype => exact behaves_quit hheader htype
  | unrecognized hheader htype hname => exact behaves_unrecognized hheader htype hname
  | nameless hheader htype hname => exact behaves_nameless hheader htype hname
  | fileSize hheader htype hsize => exact behaves_fileSize hheader htype hsize
  | refused hheader htype hsize hroom => exact behaves_refused hheader htype hsize hroom
  | file hheader htype hsize hroom hcontent => exact behaves_file hheader htype hsize hroom hcontent
  | dateLength hheader htype hlength => exact behaves_dateLength hheader htype hlength
  | date hheader htype hlength hdate => exact behaves_date hheader htype hlength hdate
  | restore hheader htype hlength hdate => exact behaves_restore hheader htype hlength hdate

/-- Without a body that arrives, nothing is stored. -/
theorem idle_of_short (hheader : HeaderReads b.uninit residue bytes f mid)
    (hshort : ∀ day, Prog.Starved (bodySession more closed mid trace f)
      (perform b f day (bodySession more closed mid trace f))) :
    Idle b ⟨bytes ++ more, closed, .fresh residue, trace⟩ :=
  idle_of_body hheader (idleAfter_dispatch_starved (hshort _))

/-- The stream begins with a round of some kind, or nothing is ever stored from it. -/
def Settled (b : Backend) (residue wire : Bytes) : Prop :=
  (∃ bytes more verdict, wire = bytes ++ more ∧ Round b.uninit b.pastEnd residue bytes verdict) ∨
    ∀ closed trace, Idle b ⟨wire, closed, .fresh residue, trace⟩

theorem file_cases (hheader : HeaderReads b.uninit residue bytes f mid)
    (htype : f.actionType = ActionType.readFile.code) (more : Bytes) :
    Settled b residue (bytes ++ more) := by
  obtain hshort | ⟨text, more, v, rfl, hsize⟩ | ⟨text, more, v, left, rfl, hsize⟩ :=
    Prog.recvBlock_cases numberWidth Istream.numberAndBreak mid more
  · right
    intro closed trace
    apply idle_of_short hheader
    intro day
    rw [perform_readFile b htype, actionReadFile_eq, Prog.bind_bind]
    exact (Prog.short_recvBlock hshort).bind _ closed (acknowledged trace f)
  · exact Or.inl ⟨_, more, _, (List.append_assoc _ _ _).symm, .fileSize hheader htype hsize⟩
  by_cases hroom : v < -1 ∨ v = Istream.intMax
  · exact Or.inl ⟨_, more, _, (List.append_assoc _ _ _).symm, .refused hheader htype hsize hroom⟩
  by_cases henough : v.toNat ≤ more.length
  · have hcontent : (more.take v.toNat).length = v.toNat := by
      rw [List.length_take]
      omega
    refine Or.inl ⟨_, more.drop v.toNat, _, ?_, .file hheader htype hsize hroom hcontent⟩
    rw [List.append_assoc, List.append_assoc, List.take_append_drop]
  · right
    intro closed trace
    apply idle_of_body hheader
    exact dispatch_file_lacking htype (Prog.recvBlock_reads hsize) rfl hroom (not_le.mp henough)

theorem restore_cases (hheader : HeaderReads b.uninit residue bytes f mid)
    (htype : f.actionType = ActionType.restore.code) (more : Bytes) :
    Settled b residue (bytes ++ more) := by
  obtain hshort | ⟨text, more, v, rfl, hlength⟩ | ⟨lengthText, more, v, mid', rfl, hlength⟩ :=
    Prog.recvBlock_cases numberWidth (Istream.getNumber Istream.toInt b.uninit) mid more
  · right
    intro closed trace
    apply idle_of_short hheader
    intro day
    rw [perform_restore b htype]
    apply Prog.Starved.bind
    exact (Prog.short_recvBlock hshort).bind _ closed (acknowledged trace f)
  · exact Or.inl ⟨_, more, _, (List.append_assoc _ _ _).symm, .dateLength hheader htype hlength⟩
  obtain hshort | ⟨text, more, date, rfl, hdate⟩ | ⟨text, more, date, left, rfl, hdate⟩ :=
    Prog.recvBlock_cases (Prog.sizeOfInt (Prog.intSucc v)) (Istream.getWord []) mid' more
  · right
    intro closed trace
    apply idle_of_body hheader
    exact dispatch_date_lacking htype (recvInt_reads hlength) rfl hshort
  · refine Or.inl ⟨_, more, _, ?_, .date hheader htype hlength hdate⟩
    simp only [List.append_assoc]
  · refine Or.inl ⟨_, more, _, ?_, .restore hheader htype hlength hdate⟩
    simp only [List.append_assoc]

theorem round_cases (b : Backend) (residue wire : Bytes) : Settled b residue wire := by
  obtain hshort | ⟨bytes, more, f, n, hwire, hheader⟩ | ⟨bytes, more, f, mid, hwire, hheader⟩ :=
    readFrame_cases b residue wire
  · exact Or.inr fun closed trace => Idle.of_round (idleAfter_starved (hshort closed trace))
  · exact Or.inl ⟨bytes, more, _, hwire, .header hheader⟩
  by_cases hfile : f.actionType = ActionType.readFile.code
  · rw [hwire]
    exact file_cases hheader hfile more
  by_cases hrestore : f.actionType = ActionType.restore.code
  · rw [hwire]
    exact restore_cases hheader hrestore more
  left
  by_cases hfolder : f.actionType = ActionType.createFolder.code
  · exact ⟨bytes, more, _, hwire, .folder hheader hfolder⟩
  by_cases hdelete : f.actionType = ActionType.deletePath.code
  · exact ⟨bytes, more, _, hwire, .deletion hheader hdelete⟩
  by_cases hquit : f.actionType = ActionType.quit.code
  · exact ⟨bytes, more, _, hwire, .quit hheader hquit⟩
  have hunknown : ActionType.ignore.code ≤ f.actionType := by
    unfold ActionType.code at *
    dsimp only at *
    omega
  by_cases hname : HasName b.pastEnd f.actionType
  · exact ⟨bytes, more, _, hwire, .unrecognized hheader hunknown hname⟩
  · exact ⟨bytes, more, _, hwire, .nameless hheader hunknown hname⟩

end Rounds
end BackupManager.Protocol
