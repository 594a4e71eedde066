import Laghu.ByteStrings
import Laghu.DependencyErrors
import Laghu.MachineIntegers

/-!
Outbound header fields. HTTP/2 and HTTP/3 convert them in the same loop, which holds each field
against what the fields before it left of the bound.
-/

namespace Laghu.HttpHeaders

open Contract DependencyErrors ByteStrings ExactWords List

/-- `Http2Header` and `Http3Header`; only HTTP/2 looks at `sensitive`. -/
structure Header where
  name : ByteString
  value : ByteString
  sensitive : Bool := false

/-- `nghttp2_nv` and `nghttp3_nv`. -/
structure NativeHeader where
  name : ByteString
  value : ByteString
  nameLength : Size
  valueLength : Size
  noIndex : Bool

def Header.native (noIndex : Bool) (h : Header) : NativeHeader :=
  ⟨h.name, h.value, h.name.size, h.value.size, noIndex⟩

section Loop

variable (native : Header → NativeHeader) (error : Error) (maximum : Size)

def convert (total : Size) : List Header → Result (List NativeHeader)
  | [] => .ok []
  | h :: rest =>
    if h.name.size = 0#64 ∨ h.name.size > maximum - total ∨
        h.value.size > maximum - total - h.name.size then .error error
    else (convert (total + (h.name.size + h.value.size)) rest).map (native h :: ·)

/-- The loop with operations that have no result where they would wrap. -/
def exactConvert (total : Size) : List Header → Option (Result (List NativeHeader))
  | [] => some (.ok [])
  | h :: rest =>
    if h.name.size = 0#64 then some (.error error) else do
      let left ← exactSub maximum total
      if h.name.size > left then return .error error
      let left ← exactSub left h.name.size
      if h.value.size > left then return .error error
      let length ← exactAdd h.name.size h.value.size
      let total ← exactAdd total length
      let converted ← exactConvert total rest
      return converted.map (native h :: ·)

end Loop

/-- The sum of all name and value lengths. -/
def totalLength (headers : List Header) : ℕ :=
  (headers.map fun h => h.name.bytes.length + h.value.bytes.length).sum

def Named (headers : List Header) : Prop := ∀ h ∈ headers, h.name.bytes ≠ []

variable {native : Header → NativeHeader} {error : Error} {maximum total : Size}
  {headers : List Header} {converted : List NativeHeader}

/-- While the total keeps to the bound, so does every operation of the loop. -/
theorem exactConvert_eq (h : total.toNat ≤ maximum.toNat) :
    exactConvert native error maximum total headers =
      some (convert native error maximum total headers) := by
  induction headers generalizing total with
  | nil => rfl
  | cons header rest ih =>
    have hm := maximum.isLt
    have hleft : (maximum - total).toNat = maximum.toNat - total.toNat := by bv_omega
    unfold exactConvert convert
    by_cases hempty : header.name.size = 0#64
    · simp [hempty]
    rw [exactSub_of_le h]
    by_cases hname : header.name.size > maximum - total
    · simp [hempty, hname]
    have hn : header.name.size.toNat ≤ (maximum - total).toNat := by bv_omega
    by_cases hvalue : header.value.size > maximum - total - header.name.size
    · simp [hempty, hname, hvalue, exactSub_of_le hn]
    have hv : (header.name.size + header.value.size).toNat =
        header.name.size.toNat + header.value.size.toNat := by bv_omega
    have hnext : total.toNat + (header.name.size + header.value.size).toNat ≤ maximum.toNat := by
      bv_omega
    have hsum : (total + (header.name.size + header.value.size)).toNat ≤ maximum.toNat := by
      bv_omega
    simp [hempty, hname, hvalue, exactSub_of_le hn, exactAdd_of_lt (x := header.name.size)
      (y := header.value.size) (by bv_omega), exactAdd_of_lt (Nat.lt_of_le_of_lt hnext hm),
      ih hsum]

theorem accepted_iff (header : Header) (h : total.toNat ≤ maximum.toNat) :
    ¬ (header.name.size = 0#64 ∨ header.name.size > maximum - total ∨
        header.value.size > maximum - total - header.name.size) ↔
      header.name.bytes ≠ [] ∧
        total.toNat + (header.name.bytes.length + header.value.bytes.length) ≤ maximum.toNat := by
  rw [← header.name.toNat_size, ← header.value.toNat_size, ← length_pos_iff,
    ← header.name.toNat_size]
  bv_omega

/-- Holding every field against what is left decides about the whole sum. -/
theorem convert_ok_iff (h : total.toNat ≤ maximum.toNat) :
    convert native error maximum total headers = .ok converted ↔
      Named headers ∧ total.toNat + totalLength headers ≤ maximum.toNat ∧
        converted = headers.map native := by
  induction headers generalizing total converted with
  | nil => simp [convert, Named, totalLength, h, eq_comm]
  | cons header rest ih =>
    have haccepted := accepted_iff header h
    have hlength : totalLength (header :: rest) =
      header.name.bytes.length + header.value.bytes.length + totalLength rest := by
      simp [totalLength]
    unfold convert
    split
    · next hrefused =>
      have := (not_iff_not.mpr haccepted).mp (not_not.mpr hrefused)
      simp only [Named, forall_mem_cons, hlength, reduceCtorEq, false_iff]
      rintro ⟨⟨hname, -⟩, hsum, -⟩
      exact this ⟨hname, by omega⟩
    next hfits =>
    obtain ⟨hname, hsum⟩ := haccepted.mp hfits
    have htotal : (total + (header.name.size + header.value.size)).toNat =
        total.toNat + (header.name.bytes.length + header.value.bytes.length) := by
      have := maximum.isLt
      rw [← header.name.toNat_size, ← header.value.toNat_size] at hsum ⊢
      bv_omega
    have hmap (x : Result (List NativeHeader)) : x.map (native header :: ·) = .ok converted ↔
        ∃ tail, x = .ok tail ∧ native header :: tail = converted := by
      cases x <;> simp [Except.map]
    simp only [hmap, ih (htotal.trans_le hsum), htotal, hlength, Named, forall_mem_cons,
      hname, map_cons, ne_eq, not_false_eq_true, true_and]
    constructor
    · rintro ⟨tail, ⟨hrest, hle, rfl⟩, rfl⟩
      exact ⟨hrest, by omega, rfl⟩
    · rintro ⟨hrest, hle, rfl⟩
      exact ⟨_, ⟨hrest, by omega, rfl⟩, rfl⟩

structure Http2Limits where
  maximumHeaderBlockBytes : Size
  maximumHeaderFields : Size

def maximumSubmissionHeaders : ℕ := 64

def headerBlockError : Error := coreError .invalidRange "HTTP/2 header block exceeds its bound"

/-- `nghttp2_submit_headers` without the session. -/
structure Submission where
  endStream : Bool
  stream : Int
  headers : List NativeHeader

/-- `submit_headers_impl` with the answer of nghttp2 and the status of its code. The stream is
returned where the source assigns it; the second part is what nghttp2 was called with. -/
def submitHeadersImpl (valid : Bool) (limits : Http2Limits) (nativeStatus : Int → DependencyStatus)
    (answer : Int) (stream : Int) (headers : List Header) (endStream assigned : Bool) :
    Result (Option Int) × Option Submission :=
  if !valid then
    (.error (coreError .invalidState "HTTP/2 session is inactive or its arena was reset"), none)
  else if headers = [] ∨ headers.length > limits.maximumHeaderFields.toNat ∨
      headers.length > maximumSubmissionHeaders then
    (.error (coreError .invalidRange "HTTP/2 header submission exceeds its bound"), none)
  else match convert (fun h => h.native h.sensitive) headerBlockError
      limits.maximumHeaderBlockBytes 0#64 headers with
    | .error e => (.error e, none)
    | .ok native =>
      (if answer < 0 then
        .error (normalizeDependencyError .nghttp2 .http2Submit (nativeStatus answer) answer)
      else if !assigned then .ok none
      else if answer ≤ 0 then .error (coreError .invalidInput "HTTP/2 stream ID must be positive")
      else .ok (some answer), some ⟨endStream, stream, native⟩)

def capacity : ℕ := 64

def fieldSectionError : Error :=
  coreError .invalidInput "HTTP/3 headers exceed the configured field-section limit"

def nativeHeaders (headers : List Header) (maximumBytes : Size) : Result (List NativeHeader) :=
  if headers = [] ∨ headers.length > capacity then
    .error (coreError .invalidRange "HTTP/3 headers must contain 1 to 64 fields")
  else convert (·.native false) fieldSectionError maximumBytes 0#64 headers

/-- `nghttp3_conn_submit_request` and `nghttp3_conn_submit_response`. -/
inductive Http3Function
  | submitRequest
  | submitResponse
  deriving DecidableEq

/-- A call of a native function without the connection. -/
structure Http3Submission where
  function : Http3Function
  stream : Int
  headers : List NativeHeader

/-- What `submit_request` and `submit_response` have in common, with the answer of the native
function and the status of its code; the second part is the call of that function. -/
def submit (function : Http3Function) (valid : Bool) (maximumFieldSectionBytes : Size)
    (statusFor : Int → DependencyStatus) (answer : Int) (stream : Int) (headers : List Header) :
    Result Unit × Option Http3Submission :=
  if !valid then
    (.error (coreError .invalidState "HTTP/3 session is inactive or its arena was reset"), none)
  else match nativeHeaders headers maximumFieldSectionBytes with
    | .error e => (.error e, none)
    | .ok native =>
      (if answer ≠ 0 then
        .error (normalizeDependencyError .nghttp3 .http3Submit (statusFor answer) answer)
      else .ok (), some ⟨function, stream, native⟩)

def submitRequest := submit .submitRequest

def submitResponse := submit .submitResponse

theorem submit_eq_some (function : Http3Function) (valid : Bool) (bound : Size)
    (status : Int → DependencyStatus) (answer stream : Int) (passed : Http3Submission) :
    (submit function valid bound status answer stream headers).2 = some passed ↔
      valid = true ∧ nativeHeaders headers bound = .ok passed.headers ∧
        passed.function = function ∧ passed.stream = stream := by
  obtain ⟨f, s, l⟩ := passed
  unfold submit
  cases valid <;> cases nativeHeaders headers bound <;>
    simp [eq_comm, and_comm, and_left_comm, and_assoc]

/-- HTTP/2 passes a list on, and HTTP/3 converts and passes it on, exactly if its fields are named
and neither too many nor too long; what is passed on is the list, and no operation of the loops
wraps. -/
theorem headers_passed_iff (valid : Bool) (limits : Http2Limits) (bound : Size)
    (status : Int → DependencyStatus) (answer stream : Int) (headers : List Header)
    (endStream assigned : Bool) :
    (∀ submission, (submitHeadersImpl valid limits status answer stream headers endStream
        assigned).2 = some submission ↔
      (valid = true ∧ 1 ≤ headers.length ∧
        headers.length ≤ min limits.maximumHeaderFields.toNat 64 ∧ Named headers ∧
        totalLength headers ≤ limits.maximumHeaderBlockBytes.toNat) ∧
      submission = ⟨endStream, stream, headers.map fun h => h.native h.sensitive⟩) ∧
    (∀ converted, nativeHeaders headers bound = .ok converted ↔
      (1 ≤ headers.length ∧ headers.length ≤ 64 ∧ Named headers ∧
        totalLength headers ≤ bound.toNat) ∧ converted = headers.map (·.native false)) ∧
    (∀ passed, ((submitRequest valid bound status answer stream headers).2 = some passed ↔
        valid = true ∧ nativeHeaders headers bound = .ok passed.headers ∧
          passed.function = .submitRequest ∧ passed.stream = stream) ∧
      ((submitResponse valid bound status answer stream headers).2 = some passed ↔
        valid = true ∧ nativeHeaders headers bound = .ok passed.headers ∧
          passed.function = .submitResponse ∧ passed.stream = stream)) ∧
    ∀ native error maximum, exactConvert native error maximum 0#64 headers =
      some (convert native error maximum 0#64 headers) := by
  have hzero (maximum : Size) : (0#64).toNat ≤ maximum.toNat := Nat.zero_le _
  have hpos : 1 ≤ headers.length ↔ headers ≠ [] := length_pos_iff
  refine ⟨fun submission => ?_, fun converted => ?_, fun passed => ?_,
    fun _ _ _ => exactConvert_eq (hzero _)⟩
  · unfold submitHeadersImpl
    split
    · simp_all
    split
    · next h =>
      simp only [reduceCtorEq, false_iff, maximumSubmissionHeaders] at h ⊢
      rintro ⟨⟨-, hl, hle, -⟩, -⟩
      exact h.elim (hpos.mp hl) (by omega)
    next hvalid h =>
    have hcount : headers.length ≤ min limits.maximumHeaderFields.toNat 64 := by
      simp only [maximumSubmissionHeaders] at h
      omega
    have hne : headers ≠ [] := fun hnil => h (.inl hnil)
    have hiff (l : List NativeHeader) : convert (fun h => h.native h.sensitive)
        headerBlockError limits.maximumHeaderBlockBytes 0#64 headers = .ok l ↔ _ :=
      convert_ok_iff (hzero limits.maximumHeaderBlockBytes)
    have hv : valid = true := by simpa using hvalid
    cases hc : convert (fun h => h.native h.sensitive) headerBlockError
      limits.maximumHeaderBlockBytes 0#64 headers with
    | error e =>
      have hnot := mt (hiff (headers.map fun h => h.native h.sensitive)).mpr (by simp [hc])
      simp_all
    | ok native =>
      obtain ⟨hnamed, hsum, rfl⟩ := (hiff native).mp hc
      simp_all [eq_comm]
  · unfold nativeHeaders
    split
    · next h =>
      simp only [reduceCtorEq, false_iff, capacity] at h ⊢
      rintro ⟨⟨hl, hle, -⟩, -⟩
      exact h.elim (hpos.mp hl) (by omega)
    next h =>
    rw [not_or, not_lt] at h
    rw [convert_ok_iff (hzero bound), hpos]
    simp [h.1, show headers.length ≤ 64 from h.2, and_assoc]
  · exact ⟨submit_eq_some .submitRequest valid bound status answer stream passed,
      submit_eq_some .submitResponse valid bound status answer stream passed⟩

end Laghu.HttpHeaders
