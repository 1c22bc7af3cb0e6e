import BackupManager.Protocol.Round

/-! Which streams leave the database with nothing but what complete requests asked for. -/
namespace BackupManager.Protocol.MalformedInput
open ByteStream Server

/-- Every call belongs to a complete request, in their order; the requests begin the stream, and what
follows them has stored nothing. -/
def Corresponds (hash : Bytes → Bytes) (pastEnd : ℕ → Bool) (stream : Bytes)
    (trace : List Effect) : Prop :=
  ∃ (requests : List (CompleteRequest pastEnd)) (rest : Bytes),
    stream = requests.flatMap (·.bytes) ++ rest ∧ calls trace = requests.filterMap (·.call hash)

/-- No row is stored from the stream: it ends within a round, or has a quit, or goes on after a round
without a row, or a field fails so late that too few bytes follow. -/
inductive Silent (uninit : ℤ) (pastEnd : ℕ → Bool) : Bytes → Bytes → Prop where
  | ends {residue stream : Bytes}
      (h : ∀ bytes more verdict, stream = bytes ++ more →
        ¬Round uninit pastEnd residue bytes verdict) :
      Silent uninit pastEnd residue stream
  | quits {residue bytes : Bytes} (h : Round uninit pastEnd residue bytes .quits) (more : Bytes) :
      Silent uninit pastEnd residue (bytes ++ more)
  | passes {residue bytes left more : Bytes} (h : Round uninit pastEnd residue bytes (.passes left))
      (hrest : Silent uninit pastEnd left more) : Silent uninit pastEnd residue (bytes ++ more)
  | spoils {residue bytes more : Bytes} {untilRow : Option ℕ}
      (h : Round uninit pastEnd residue bytes (.spoils untilRow))
      (hfew : ∀ k ∈ untilRow, more.length < k) :
      Silent uninit pastEnd residue (bytes ++ more)

/-- What the requests leave in the stream. -/
def residueAfter {pastEnd : ℕ → Bool} (residue : Bytes) : List (CompleteRequest pastEnd) → Bytes
  | [] => residue
  | x :: requests => residueAfter x.residue requests

/-- Complete requests, and after them nothing from which a row is stored. -/
def Intact (uninit : ℤ) (pastEnd : ℕ → Bool) (stream : Bytes) : Prop :=
  ∃ (requests : List (CompleteRequest pastEnd)) (tail : Bytes),
    stream = requests.flatMap (·.bytes) ++ tail ∧ Silent uninit pastEnd (residueAfter [] requests) tail

section Silent

variable {b : Backend} {residue bytes wire : Bytes}

theorem idle_of_silent (h : Silent b.uninit b.pastEnd residue wire) (closed : Bool) (trace : List Effect) :
    Idle b ⟨wire, closed, .fresh residue, trace⟩ := by
  induction h generalizing trace with
  | @ends residue stream h =>
    rcases round_cases b residue stream with ⟨bytes, more, verdict, hwire, hround⟩ | hidle
    · exact absurd hround (h bytes more verdict hwire)
    · exact hidle closed trace
  | quits h more => exact behaves_of_round h more closed trace
  | @passes residue bytes left more h hrest ih =>
    obtain ⟨trace', hround, hcalls⟩ := behaves_of_round h more closed trace
    exact Idle.of_round (idleAfter_of_returns hround hcalls (ih trace'))
  | @spoils residue bytes more untilRow h hfew =>
    exact (behaves_of_round h more closed trace).1 hfew

/-- What is not silent stores a row. -/
theorem silent_or_stores (b : Backend) (residue wire : Bytes) :
    Silent b.uninit b.pastEnd residue wire ∨
      ∀ closed trace, Stores b ⟨wire, closed, .fresh residue, trace⟩ := by
  induction hn : wire.length using Nat.strong_induction_on generalizing residue wire with
  | _ n ih =>
    by_cases hround : ∃ bytes more verdict, wire = bytes ++ more ∧
        Round b.uninit b.pastEnd residue bytes verdict
    swap
    · exact Or.inl (.ends fun bytes more verdict hwire h => hround ⟨bytes, more, verdict, hwire, h⟩)
    obtain ⟨bytes, more, verdict, rfl, h⟩ := hround
    cases verdict with
    | stores => exact Or.inr fun closed trace => behaves_of_round h more closed trace
    | quits => exact Or.inl (.quits h more)
    | passes left =>
      have hlt : more.length < n := by
        rw [← hn, List.length_append]
        have hpos := h.pos_of_passes
        omega
      rcases ih more.length hlt left more rfl with hrest | hrest
      · exact Or.inl (.passes h hrest)
      · right
        intro closed trace
        obtain ⟨trace', hrun, hcalls⟩ := behaves_of_round h more closed trace
        exact Stores.of_round (storesAfter_of_returns hrun hcalls (hrest closed trace'))
    | spoils untilRow =>
      by_cases hfew : ∀ k ∈ untilRow, more.length < k
      · exact Or.inl (.spoils h hfew)
      · push Not at hfew
        obtain ⟨k, hk, henough⟩ := hfew
        exact Or.inr fun closed trace => (behaves_of_round h more closed trace).2 k hk henough

end Silent

section Requests

variable {b : Backend} {residue tail : Bytes} {closed : Bool} {trace : List Effect}

/-- A run over complete requests stores what they ask for. -/
theorem loopTrace_requests (b : Backend) (requests : List (CompleteRequest b.pastEnd))
    (hr : Blank residue) (tail : Bytes) (closed : Bool) (trace : List Effect) :
    ∃ trace', calls trace' = calls trace ++ requests.filterMap (·.call b.hash) ∧
      ∀ n, loopTrace b (requests.length + n)
          ⟨requests.flatMap (·.bytes) ++ tail, closed, .fresh residue, trace⟩ =
        loopTrace b n ⟨tail, closed, .fresh (residueAfter residue requests), trace'⟩ := by
  induction requests generalizing residue trace with
  | nil => exact ⟨trace, (List.append_nil _).symm, fun n => by rw [List.length_nil, Nat.zero_add]; rfl⟩
  | cons x requests ih =>
    obtain ⟨trace₁, hround, hcalls₁⟩ := readAction_complete b x hr
      (requests.flatMap (·.bytes) ++ tail) closed trace
    obtain ⟨trace₂, hcalls₂, hrun⟩ := ih x.blank_residue trace₁
    refine ⟨trace₂, ?_, fun n => ?_⟩
    · rw [hcalls₂, hcalls₁, List.append_assoc]
      cases hx : x.call b.hash <;> simp [hx]
    · have hcount : (x :: requests).length + n = requests.length + n + 1 := by
        rw [List.length_cons]
        omega
      rw [hcount, List.flatMap_cons, List.append_assoc, loopTrace_true hround, hrun n]
      rfl

/-- Two complete requests at the same place are the same request to the server. -/
theorem complete_unique (b : Backend) {x y : CompleteRequest b.pastEnd} {rest rest' : Bytes}
    (h : x.bytes ++ rest = y.bytes ++ rest') :
    rest = rest' ∧ x.call b.hash = y.call b.hash := by
  obtain ⟨trace₁, hround₁, hcalls₁⟩ := readAction_complete b x Blank.nil rest true []
  obtain ⟨trace₂, hround₂, hcalls₂⟩ := readAction_complete b y Blank.nil rest' true []
  rw [h, hround₂] at hround₁
  have hsession := (Prod.mk.inj hround₁).2
  have hrest : rest' = rest := congrArg Session.wire hsession
  have htrace : trace₂ = trace₁ := congrArg Session.world hsession
  rw [htrace, hcalls₁] at hcalls₂
  refine ⟨hrest.symm, ?_⟩
  have hlist := List.append_cancel_left hcalls₂
  cases hx : x.call b.hash <;> cases hy : y.call b.hash <;> simp_all

/-- Where no complete request follows, no others begin the stream. -/
theorem calls_prefix (b : Backend) (requests : List (CompleteRequest b.pastEnd)) {tail : Bytes}
    (htail : ∀ (x : CompleteRequest b.pastEnd) (rest : Bytes), tail ≠ x.bytes ++ rest)
    (others : List (CompleteRequest b.pastEnd)) (rest : Bytes)
    (h : requests.flatMap (·.bytes) ++ tail = others.flatMap (·.bytes) ++ rest) :
    others.filterMap (·.call b.hash) <+: requests.filterMap (·.call b.hash) := by
  induction others generalizing requests with
  | nil => exact List.nil_prefix
  | cons y others ih =>
    cases requests with
    | nil =>
      rw [List.flatMap_cons, List.append_assoc] at h
      exact absurd h (htail y _)
    | cons x requests =>
      rw [List.flatMap_cons, List.flatMap_cons, List.append_assoc, List.append_assoc] at h
      obtain ⟨hrest, hcall⟩ := complete_unique b h
      have hprefix := ih requests hrest
      rw [List.filterMap_cons, List.filterMap_cons, hcall]
      cases y.call b.hash with
      | none => exact hprefix
      | some c => exact (List.prefix_cons_inj c).mpr hprefix

theorem CompleteRequest.pos (x : CompleteRequest b.pastEnd) : 0 < x.bytes.length := by
  have htype : 0 < x.header.actionType.bytes.length := by
    rw [SizeField.bytes, Number.length_bytes]
    omega
  rw [CompleteRequest.bytes, Header.bytes, List.length_append, List.length_append]
  omega

/-- The complete requests that begin the stream. -/
theorem exists_requests (b : Backend) (stream : Bytes) :
    ∃ (requests : List (CompleteRequest b.pastEnd)) (tail : Bytes),
      stream = requests.flatMap (·.bytes) ++ tail ∧
        ∀ (x : CompleteRequest b.pastEnd) (rest : Bytes), tail ≠ x.bytes ++ rest := by
  induction hn : stream.length using Nat.strong_induction_on generalizing stream with
  | _ n ih =>
    by_cases hfirst : ∃ (x : CompleteRequest b.pastEnd) (rest : Bytes), stream = x.bytes ++ rest
    · obtain ⟨x, rest, rfl⟩ := hfirst
      have hlt : rest.length < n := by
        rw [← hn, List.length_append]
        have hpos := CompleteRequest.pos x
        omega
      obtain ⟨requests, tail, hrest, htail⟩ := ih rest.length hlt rest rfl
      refine ⟨x :: requests, tail, ?_, htail⟩
      rw [List.flatMap_cons, List.append_assoc, ← hrest]
    · exact ⟨[], stream, rfl, fun x rest h => hfirst ⟨x, rest, h⟩⟩

end Requests

theorem corresponds_of_intact {b : Backend} {stream : Bytes} (h : Intact b.uninit b.pastEnd stream)
    (closed : Bool) (n : ℕ) :
    Corresponds b.hash b.pastEnd stream (loopTrace b n ⟨stream, closed, .fresh [], []⟩) := by
  obtain ⟨requests, tail, rfl, hsilent⟩ := h
  by_cases hn : n ≤ requests.length
  · have hsplit : requests.flatMap (·.bytes) ++ tail = (requests.take n).flatMap (·.bytes) ++
        ((requests.drop n).flatMap (·.bytes) ++ tail) := by
      rw [← List.append_assoc, ← List.flatMap_append, List.take_append_drop]
    have hlength : (requests.take n).length + 0 = n := by
      rw [List.length_take]
      omega
    obtain ⟨trace', hcalls, hrun⟩ := loopTrace_requests b (requests.take n) Blank.nil
      ((requests.drop n).flatMap (·.bytes) ++ tail) closed []
    have hloop := hrun 0
    rw [hlength, ← hsplit, loopTrace_zero] at hloop
    exact ⟨requests.take n, _, hsplit, by rw [hloop, hcalls]; rfl⟩
  · obtain ⟨trace', hcalls, hrun⟩ := loopTrace_requests b requests Blank.nil tail closed []
    have hlength : requests.length + (n - requests.length) = n := by omega
    have hloop := hrun (n - requests.length)
    rw [hlength] at hloop
    refine ⟨requests, tail, rfl, ?_⟩
    rw [hloop, idle_of_silent hsilent closed trace', hcalls]
    rfl

theorem intact_of_corresponds {b : Backend} {stream : Bytes}
    (h : ∀ closed n,
      Corresponds b.hash b.pastEnd stream (loopTrace b n ⟨stream, closed, .fresh [], []⟩)) :
    Intact b.uninit b.pastEnd stream := by
  obtain ⟨requests, tail, rfl, htail⟩ := exists_requests b stream
  refine ⟨requests, tail, rfl, ?_⟩
  rcases silent_or_stores b (residueAfter [] requests) tail with hsilent | hstores
  · exact hsilent
  obtain ⟨trace', hcalls, hrun⟩ := loopTrace_requests b requests Blank.nil tail true []
  obtain ⟨n, c, hrow⟩ := hstores true trace'
  obtain ⟨others, rest, hstream, htrace⟩ := h true (requests.length + n)
  have hprefix := calls_prefix b requests htail others rest hstream
  rw [hrun n, hrow, hcalls] at htrace
  have hle := hprefix.length_le
  rw [← htrace] at hle
  simp [calls] at hle

/-- The rows stored are those of the complete requests that begin the stream, exactly when it is
intact. -/
theorem malformed_input (b : Backend) (stream : Bytes) :
    (∀ closed n,
      Corresponds b.hash b.pastEnd stream (loopTrace b n ⟨stream, closed, .fresh [], []⟩)) ↔
      Intact b.uninit b.pastEnd stream :=
  ⟨intact_of_corresponds, corresponds_of_intact⟩

/-- Letters where an action type is expected, and zeros. -/
def garbage : Bytes := List.replicate numberWidth 120 ++ List.replicate (blankRound - numberWidth) 48

theorem not_complete_garbage {pastEnd : ℕ → Bool} (x : CompleteRequest pastEnd) (rest : Bytes) :
    garbage ≠ x.bytes ++ rest := by
  intro h
  have htext : x.header.actionType.number.text = List.replicate intMaxNDigit 120 := by
    have htake := congrArg (List.take intMaxNDigit) h
    rw [← x.header.actionType.width, CompleteRequest.bytes, Header.bytes, SizeField.bytes, Number.bytes,
      List.append_assoc, List.append_assoc, List.append_assoc, List.take_left,
      x.header.actionType.width] at htake
    rw [← htake]
    decide
  obtain ⟨d, digits, hdigits⟩ := List.exists_cons_of_ne_nil x.header.actionType.number.nonempty
  have hd : d ∈ x.header.actionType.number.digits := by
    rw [hdigits]
    exact List.mem_cons_self
  have hmem : d ∈ x.header.actionType.number.text := List.mem_append_right _ hd
  rw [htext] at hmem
  have hdigit := x.header.actionType.number.digit d hd
  rw [List.eq_of_mem_replicate hmem] at hdigit
  exact absurd hdigit (by decide)

/-- The letters are no action type, and the zeros become an empty file at the empty path. -/
theorem garbage_stored :
    ¬∀ closed n, Corresponds sampleBackend.hash sampleBackend.pastEnd garbage
      (loopTrace sampleBackend n ⟨garbage, closed, .fresh [], []⟩) := by
  intro h
  have hround : Round sampleBackend.uninit sampleBackend.pastEnd [] (List.replicate numberWidth 120)
      (.spoils (some (blankRound - numberWidth))) :=
    .header (.actionType (t := 0) ⟨rfl, by decide, by decide⟩)
  obtain ⟨n, c, hrow⟩ := (behaves_of_round hround (List.replicate (blankRound - numberWidth) 48) true []).2
    (blankRound - numberWidth) rfl (by decide)
  obtain ⟨requests, rest, hstream, htrace⟩ := h true n
  cases requests with
  | nil => exact absurd (hrow.symm.trans htrace) (by simp [calls])
  | cons x requests =>
    rw [List.flatMap_cons, List.append_assoc] at hstream
    exact not_complete_garbage x _ hstream

end BackupManager.Protocol.MalformedInput
