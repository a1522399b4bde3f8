/-
# The limit on a body

What `readCappedBody` makes of a body, however it is cut into chunks, and what it holds
while it reads.

* `Reading` follows a read turn by turn, along a stream that need not end.
* `readCappedBody_limit`: the outcome is a matter of the bytes, and the buffer is never
  more than a chunk over the limit.

Where the program is built for, `usize` has 64 bits, and the cast of the declared length
keeps it.
-/
import Serica.ExtractSpan

namespace Fetch

variable {display : String → String}

/-! ## The outcome -/

/-- The first chunk goes to the buffer, and the others are read behind it. -/
theorem exists_bodies_cons {maxBytes : ℕ} {chunks : List (Except String (List UInt8))}
    {buf chunk out : List UInt8} :
    (∃ bodies : List (List UInt8), .ok chunk :: chunks = bodies.map .ok
        ∧ out = buf ++ bodies.flatten ∧ out.length ≤ maxBytes)
      ↔ ∃ bodies : List (List UInt8), chunks = bodies.map .ok
        ∧ out = (buf ++ chunk) ++ bodies.flatten ∧ out.length ≤ maxBytes := by
  constructor
  · rintro ⟨_ | ⟨body, bodies⟩, hchunks, hout, hfits⟩
    · simp at hchunks
    · rw [List.map_cons, List.cons.injEq, Except.ok.injEq] at hchunks
      obtain ⟨rfl, hchunks⟩ := hchunks
      exact ⟨bodies, hchunks, by rw [hout, List.flatten_cons, List.append_assoc], hfits⟩
  · rintro ⟨bodies, rfl, hout, hfits⟩
    refine ⟨chunk :: bodies, rfl, ?_, hfits⟩
    rw [hout, List.flatten_cons, List.append_assoc]

/-- What is read without an error is the chunks, one after the other. -/
theorem readChunks_eq_ok_iff {maxBytes : ℕ} {chunks : List (Except String (List UInt8))}
    {buf out : List UInt8} (hbuf : buf.length ≤ maxBytes) :
    readChunks display maxBytes buf chunks = .ok out
      ↔ ∃ bodies : List (List UInt8), chunks = bodies.map .ok ∧ out = buf ++ bodies.flatten
        ∧ out.length ≤ maxBytes := by
  induction chunks generalizing buf with
  | nil =>
      rw [readChunks, Except.ok.injEq]
      constructor
      · rintro rfl
        exact ⟨[], rfl, (List.append_nil buf).symm, hbuf⟩
      · rintro ⟨bodies, hnil, rfl, -⟩
        rw [List.map_eq_nil_iff.mp hnil.symm, List.flatten_nil, List.append_nil]
  | cons chunk chunks ih =>
      cases chunk with
      | error e =>
          rw [readChunks]
          refine iff_of_false (by simp) ?_
          rintro ⟨_ | ⟨body, bodies⟩, hchunks, -⟩ <;> simp at hchunks
      | ok chunk =>
          rw [readChunks, exists_bodies_cons]
          split_ifs with hlarge
          · refine iff_of_false (by simp) ?_
            rintro ⟨bodies, -, rfl, hfits⟩
            rw [List.length_append] at hfits
            omega
          · exact ih (not_lt.mp hlarge)

/-- The read stops at the first chunk behind which the total is over the limit. -/
theorem readChunks_tooLarge_iff {maxBytes : ℕ} {chunks : List (Except String (List UInt8))}
    {buf : List UInt8} (hbuf : buf.length ≤ maxBytes) :
    (∃ msg, readChunks display maxBytes buf chunks = .error (.contentTooLarge msg))
      ↔ ∃ (bodies : List (List UInt8)) (rest : List (Except String (List UInt8))),
        chunks = bodies.map .ok ++ rest ∧ maxBytes < (buf ++ bodies.flatten).length := by
  induction chunks generalizing buf with
  | nil =>
      refine iff_of_false (fun ⟨_, h⟩ => nomatch h) ?_
      rintro ⟨bodies, rest, hnil, hlarge⟩
      rw [List.nil_eq_append_iff, List.map_eq_nil_iff] at hnil
      rw [hnil.1, List.flatten_nil, List.append_nil] at hlarge
      omega
  | cons chunk chunks ih =>
      have hnone : ∀ rest, chunk :: chunks = ([] : List (List UInt8)).map .ok ++ rest →
          ¬ maxBytes < (buf ++ ([] : List (List UInt8)).flatten).length := by
        intro rest _
        rw [List.flatten_nil, List.append_nil]
        omega
      cases chunk with
      | error e =>
          refine iff_of_false (fun ⟨_, h⟩ => nomatch h) ?_
          rintro ⟨_ | ⟨body, bodies⟩, rest, hchunks, hlarge⟩
          · exact hnone rest hchunks hlarge
          · simp at hchunks
      | ok chunk =>
          rw [readChunks]
          split_ifs with hlarge
          · refine iff_of_true ⟨_, rfl⟩ ⟨[chunk], chunks, rfl, ?_⟩
            rw [List.flatten_singleton]
            exact hlarge
          · rw [ih (not_lt.mp hlarge)]
            constructor
            · rintro ⟨bodies, rest, rfl, htotal⟩
              exact ⟨chunk :: bodies, rest, rfl, by rwa [List.flatten_cons, ← List.append_assoc]⟩
            · rintro ⟨_ | ⟨body, bodies⟩, rest, hchunks, htotal⟩
              · exact absurd htotal (hnone rest hchunks)
              · rw [List.map_cons, List.cons_append, List.cons.injEq, Except.ok.injEq] at hchunks
                obtain ⟨rfl, rfl⟩ := hchunks
                exact ⟨bodies, rest, rfl, by rwa [List.append_assoc, ← List.flatten_cons]⟩

theorem readChunks_nil_tooLarge_iff (maxBytes : ℕ)
    (chunks : List (Except String (List UInt8))) :
    (∃ msg, readChunks display maxBytes [] chunks = .error (.contentTooLarge msg))
      ↔ ∃ (bodies : List (List UInt8)) (rest : List (Except String (List UInt8))),
        chunks = bodies.map .ok ++ rest ∧ maxBytes < bodies.flatten.length :=
  readChunks_tooLarge_iff (Nat.zero_le maxBytes)

/-! ## The read, turn by turn -/

/-- What the stream of a body gives when it is asked once more. -/
abbrev NextChunk := Option (Except String (List UInt8))

/-- A read in progress: the buffer, and the outcome once there is one. -/
structure Reading where
  buf : List UInt8
  outcome : Option (Except AppError Unit)

namespace Reading

/-- A turn of the loop of `readCappedBody`.  The buffer grows before it is checked. -/
def turn (display : String → String) (maxBytes : ℕ) (r : Reading) (next : NextChunk) : Reading :=
  match r.outcome with
  | some _ => r
  | none =>
      match next with
      | none => ⟨r.buf, some (.ok ())⟩
      | some (.error e) =>
          ⟨r.buf, some (.error (.internal ("Failed to read response body: " ++ display e)))⟩
      | some (.ok chunk) =>
          let buf := r.buf ++ chunk
          ⟨buf, if buf.length > maxBytes then some (.error (tooLarge maxBytes)) else none⟩

/-- The read after a turn for each answer of the stream. -/
def run (display : String → String) (maxBytes : ℕ) (r : Reading) (nexts : List NextChunk) :
    Reading :=
  nexts.foldl (turn display maxBytes) r

/-- The buffer is empty when the read starts. -/
def start : Reading := ⟨[], none⟩

/-- A read that has its outcome is over. -/
theorem run_of_outcome (maxBytes : ℕ) (buf : List UInt8) (outcome : Except AppError Unit)
    (nexts : List NextChunk) :
    run display maxBytes ⟨buf, some outcome⟩ nexts = ⟨buf, some outcome⟩ := by
  induction nexts with
  | nil => rfl
  | cons next nexts ih => exact ih

theorem run_chunk {maxBytes : ℕ} {buf chunk : List UInt8} (nexts : List NextChunk)
    (hfits : (buf ++ chunk).length ≤ maxBytes) :
    run display maxBytes ⟨buf, none⟩ (some (.ok chunk) :: nexts)
      = run display maxBytes ⟨buf ++ chunk, none⟩ nexts := by
  rw [run, List.foldl_cons]
  simp only [turn, if_neg (not_lt.mpr hfits)]
  rfl

theorem run_large {maxBytes : ℕ} {buf chunk : List UInt8} (nexts : List NextChunk)
    (hlarge : maxBytes < (buf ++ chunk).length) :
    run display maxBytes ⟨buf, none⟩ (some (.ok chunk) :: nexts)
      = ⟨buf ++ chunk, some (.error (tooLarge maxBytes))⟩ := by
  rw [run, List.foldl_cons]
  simp only [turn, if_pos hlarge]
  exact run_of_outcome maxBytes _ _ nexts

variable (display) in
/-- **The turns are those of the loop**: where the chunks stop the loop, they stop the read
with its error, whatever the stream goes on to give. -/
theorem run_chunks (maxBytes : ℕ) (buf : List UInt8) (chunks : List (Except String (List UInt8)))
    (rest : List NextChunk) :
    run display maxBytes ⟨buf, none⟩ (chunks.map some ++ rest)
      = match readChunks display maxBytes buf chunks with
        | .ok out => run display maxBytes ⟨out, none⟩ rest
        | .error e =>
            ⟨(run display maxBytes ⟨buf, none⟩ (chunks.map some)).buf, some (.error e)⟩ := by
  induction chunks generalizing buf with
  | nil => rfl
  | cons chunk chunks ih =>
      cases chunk with
      | error e =>
          have hstop : ∀ nexts, run display maxBytes ⟨buf, none⟩ (some (.error e) :: nexts)
              = ⟨buf, some (.error (.internal ("Failed to read response body: " ++ display e)))⟩ :=
            fun nexts => run_of_outcome maxBytes buf _ nexts
          rw [List.map_cons, List.cons_append, hstop, hstop]
          rfl
      | ok chunk =>
          rw [List.map_cons, List.cons_append, readChunks]
          split_ifs with hlarge
          · rw [run_large _ hlarge, run_large _ hlarge]
          · rw [run_chunk _ (not_lt.mp hlarge), run_chunk _ (not_lt.mp hlarge)]
            exact ih (buf ++ chunk)

/-- The buffer is never more than a chunk over the limit. -/
theorem run_held {maxBytes : ℕ} (nexts : List NextChunk) {buf : List UInt8}
    (hbuf : buf.length ≤ maxBytes) :
    ∃ chunk, (chunk = [] ∨ some (.ok chunk) ∈ nexts)
      ∧ (run display maxBytes ⟨buf, none⟩ nexts).buf.length ≤ maxBytes + chunk.length := by
  induction nexts generalizing buf with
  | nil => exact ⟨[], Or.inl rfl, hbuf⟩
  | cons next nexts ih =>
      match next with
      | none =>
          have hstop : run display maxBytes ⟨buf, none⟩ (none :: nexts) = ⟨buf, some (.ok ())⟩ :=
            run_of_outcome maxBytes buf _ nexts
          exact ⟨[], Or.inl rfl, by rw [hstop]; exact hbuf⟩
      | some (.error e) =>
          have hstop : (run display maxBytes ⟨buf, none⟩ (some (.error e) :: nexts)).buf = buf :=
            congrArg Reading.buf (run_of_outcome maxBytes buf _ nexts)
          exact ⟨[], Or.inl rfl, by rw [hstop]; exact hbuf⟩
      | some (.ok chunk) =>
          by_cases hlarge : maxBytes < (buf ++ chunk).length
          · refine ⟨chunk, Or.inr List.mem_cons_self, ?_⟩
            rw [run_large nexts hlarge, List.length_append]
            omega
          · obtain ⟨last, hlast, hheld⟩ := ih (not_lt.mp hlarge)
            refine ⟨last, hlast.imp_right (List.mem_cons_of_mem _), ?_⟩
            rwa [run_chunk nexts (not_lt.mp hlarge)]

/-- A read that has no outcome yet goes on. -/
theorem outcome_run_chunks (maxBytes : ℕ) (chunks : List (Except String (List UInt8))) :
    (run display maxBytes start (chunks.map some)).outcome
      = match readChunks display maxBytes [] chunks with
      | .ok _ => none
      | .error e => some (.error e) := by
  have hrun := run_chunks display maxBytes [] chunks []
  rw [List.append_nil] at hrun
  rw [start, hrun]
  cases readChunks display maxBytes [] chunks <;> rfl

/-- An endless stream is given up when its chunks go over the limit. -/
theorem endless_tooLarge_iff (maxBytes : ℕ) (stream : ℕ → Except String (List UInt8)) :
    (∃ n msg, (run display maxBytes start ((List.range n).map fun i => some (stream i))).outcome
        = some (.error (.contentTooLarge msg)))
      ↔ ∃ bodies : List (List UInt8), (List.range bodies.length).map stream = bodies.map .ok
        ∧ maxBytes < bodies.flatten.length := by
  have hturns : ∀ n, (∃ msg, (run display maxBytes start ((List.range n).map fun i =>
        some (stream i))).outcome = some (.error (.contentTooLarge msg)))
      ↔ ∃ (bodies : List (List UInt8)) (rest : List (Except String (List UInt8))),
        (List.range n).map stream = bodies.map .ok ++ rest
          ∧ maxBytes < bodies.flatten.length := by
    intro n
    have hmap : ((List.range n).map fun i => some (stream i))
        = ((List.range n).map stream).map some := by rw [List.map_map]; rfl
    rw [← readChunks_nil_tooLarge_iff, hmap, outcome_run_chunks]
    cases readChunks display maxBytes [] ((List.range n).map stream) <;> simp
  constructor
  · rintro ⟨n, hn⟩
    obtain ⟨bodies, rest, hbodies, hlarge⟩ := (hturns n).mp hn
    refine ⟨bodies, ?_, hlarge⟩
    have hle : bodies.length ≤ n := by
      have hlength := congrArg List.length hbodies
      simp only [List.length_map, List.length_range, List.length_append] at hlength
      omega
    have htake := congrArg (List.take bodies.length) hbodies
    rwa [← List.map_take, List.take_range, Nat.min_eq_left hle,
      List.take_left' (List.length_map _)] at htake
  · rintro ⟨bodies, hbodies, hlarge⟩
    exact ⟨bodies.length, (hturns _).mpr ⟨bodies, [], by rw [hbodies, List.append_nil], hlarge⟩⟩

end Reading

/-! ## The limit -/

/-- A length is declared that is over the limit. -/
def DeclaredOver (response : Ssrf.Response) (maxBytes : ℕ) : Prop :=
  ∃ len ∈ response.contentLength, maxBytes < len.toNat

theorem readCappedBody_of_declaredOver {response : Ssrf.Response} {maxBytes : ℕ}
    (h : DeclaredOver response maxBytes) :
    readCappedBody display response maxBytes = .error (tooLarge maxBytes) := by
  obtain ⟨len, hlen, hover⟩ := h
  rw [Option.mem_def] at hlen
  rw [readCappedBody, hlen, Option.any_some, if_pos (decide_eq_true hover)]

theorem readCappedBody_of_not_declaredOver {response : Ssrf.Response} {maxBytes : ℕ}
    (h : ¬ DeclaredOver response maxBytes) :
    readCappedBody display response maxBytes = (readChunks display maxBytes [] response.chunks).map
      fun buf => String.ofList (Utf8.decodeLossy buf) := by
  have hany : response.contentLength.any (fun len => decide (len.toNat > maxBytes)) = false := by
    rw [Option.any_eq_false]
    intro len hlen
    exact decide_eq_false fun hover => h ⟨len, hlen, hover⟩
  rw [readCappedBody, hany, if_neg Bool.false_ne_true]
  cases readChunks display maxBytes [] response.chunks <;> rfl

/-- What is read of a body: the text of its chunks put together. -/
theorem readCappedBody_eq_ok_iff {response : Ssrf.Response} {maxBytes : ℕ} {text : String} :
    readCappedBody display response maxBytes = .ok text
      ↔ ¬ DeclaredOver response maxBytes
        ∧ ∃ bodies : List (List UInt8), response.chunks = bodies.map .ok
          ∧ bodies.flatten.length ≤ maxBytes
          ∧ text = String.ofList (Utf8.decodeLossy bodies.flatten) := by
  by_cases hover : DeclaredOver response maxBytes
  · rw [readCappedBody_of_declaredOver hover]
    exact iff_of_false (fun h => nomatch h) fun h => h.1 hover
  · rw [readCappedBody_of_not_declaredOver hover, and_iff_right hover]
    constructor
    · intro hok
      cases hchunks : readChunks display maxBytes [] response.chunks with
      | error e =>
          rw [hchunks] at hok
          exact nomatch hok
      | ok buf =>
          rw [hchunks] at hok
          obtain ⟨bodies, hbodies, rfl, hfits⟩ :=
            (readChunks_eq_ok_iff (Nat.zero_le maxBytes)).mp hchunks
          exact ⟨bodies, hbodies, hfits, (Except.ok.inj hok).symm⟩
    · rintro ⟨bodies, hbodies, hfits, rfl⟩
      rw [(readChunks_eq_ok_iff (Nat.zero_le maxBytes)).mpr ⟨bodies, hbodies, rfl, hfits⟩]
      rfl

theorem readCappedBody_tooLarge_iff {response : Ssrf.Response} {maxBytes : ℕ} :
    (∃ msg, readCappedBody display response maxBytes = .error (.contentTooLarge msg))
      ↔ DeclaredOver response maxBytes
        ∨ ∃ (bodies : List (List UInt8)) (rest : List (Except String (List UInt8))),
          response.chunks = bodies.map .ok ++ rest ∧ maxBytes < bodies.flatten.length := by
  by_cases hover : DeclaredOver response maxBytes
  · rw [readCappedBody_of_declaredOver hover]
    exact iff_of_true ⟨_, rfl⟩ (Or.inl hover)
  · rw [readCappedBody_of_not_declaredOver hover, or_iff_right hover,
      ← readChunks_nil_tooLarge_iff]
    cases readChunks display maxBytes [] response.chunks <;> simp [Except.map]

/-- **The limit is a matter of the bytes.**  A body is read exactly when its declared length
and the total of its chunks are within the limit and no chunk is an error, and its text is
that of the chunks put together.  It is refused as too large exactly when the declared length
is over the limit, or the total is before any error, also on a stream that never ends.  At
every moment of a read the buffer is at most a chunk over the limit. -/
theorem readCappedBody_limit (display : String → String) (response : Ssrf.Response)
    (maxBytes : ℕ) :
    (∀ text, readCappedBody display response maxBytes = .ok text
      ↔ ¬ DeclaredOver response maxBytes
        ∧ ∃ bodies : List (List UInt8), response.chunks = bodies.map .ok
          ∧ bodies.flatten.length ≤ maxBytes
          ∧ text = String.ofList (Utf8.decodeLossy bodies.flatten))
    ∧ ((∃ msg, readCappedBody display response maxBytes = .error (.contentTooLarge msg))
      ↔ DeclaredOver response maxBytes
        ∨ ∃ (bodies : List (List UInt8)) (rest : List (Except String (List UInt8))),
          response.chunks = bodies.map .ok ++ rest ∧ maxBytes < bodies.flatten.length)
    ∧ (∀ stream : ℕ → Except String (List UInt8),
      (∃ n msg, (Reading.run display maxBytes .start ((List.range n).map fun i =>
          some (stream i))).outcome = some (.error (.contentTooLarge msg)))
        ↔ ∃ bodies : List (List UInt8), (List.range bodies.length).map stream = bodies.map .ok
          ∧ maxBytes < bodies.flatten.length)
    ∧ ∀ nexts : List NextChunk, ∃ chunk, (chunk = [] ∨ some (.ok chunk) ∈ nexts)
      ∧ (Reading.run display maxBytes .start nexts).buf.length ≤ maxBytes + chunk.length := by
  refine ⟨fun _ => readCappedBody_eq_ok_iff, readCappedBody_tooLarge_iff,
    Reading.endless_tooLarge_iff maxBytes, fun nexts => ?_⟩
  exact Reading.run_held nexts (Nat.zero_le maxBytes)

end Fetch
