import DistWorkshops.Lib.TimeFormat
import DistWorkshops.Lib.Utf8

/-!
# The UTC server and its client: what passes between them

`validate_request` and the answer of `server-UTC.py`, and `validate_reply` of `client-UTC.py`. The
answer to a valid request is the time of the server in whole seconds as a text, and the client reads
it with `strptime`; any other request is answered too, by the text of its error behind `ERROR: `.
Up to the end of the year 9999 the client accepts exactly the answers to valid requests.
-/

set_option autoImplicit false

namespace Utc

open Text Decimal Calendar TimeFormat

abbrev Bytes := List UInt8

/-! ## The server -/

def maxRequestBytes : ℕ := 1024

def validRequests : List (List Char) := ["TIME REQUEST".toList, "TIME".toList, "PING".toList]

/-- The errors of `validate_request`. -/
inductive RequestError where
  | empty
  | tooLarge (bytes : ℕ)
  | notUtf8
  | blank
  | unknown (text : List Char)
  deriving DecidableEq

def RequestError.text : RequestError → List Char
  | .empty => "empty request".toList
  | .tooLarge bytes => "request too large (".toList ++ digits bytes ++ " bytes)".toList
  | .notUtf8 => "request is not valid UTF-8".toList
  | .blank => "blank request".toList
  | .unknown text => "unknown request '".toList ++ text ++ "'".toList

def validateRequest (unicode : Unicode) (raw : Bytes) : Except RequestError (List Char) :=
  if raw.isEmpty then .error .empty
  else if raw.length > maxRequestBytes then .error (.tooLarge raw.length)
  else match Utf8.decode raw with
    | none => .error .notUtf8
    | some decoded =>
        let text := strip decoded
        if text.isEmpty then .error .blank
        else if !validRequests.contains (unicode.upper text) then .error (.unknown text)
        else .ok text

/-- The first of January 1970 is day 719162. -/
def gmtime (now : ℕ) : Time := ofSeconds 719162 now

def utcTime (now : ℕ) : List Char := strftime (gmtime now)

def errorReply (exc : RequestError) : List Char := "ERROR: ".toList ++ exc.text

/-- What the server sends back when its clock shows `now`. -/
def answer (unicode : Unicode) (raw : Bytes) (now : ℕ) : List Char :=
  match validateRequest unicode raw with
  | .ok _ => utcTime now
  | .error exc => errorReply exc

/-! ## The client -/

/-- What `utc_time_client` sends. -/
def timeRequest : List Char := "Time request".toList

/-- The errors of `validate_reply`. -/
inductive ReplyError where
  | empty
  | notUtf8
  | rejected (text : List Char)
  | notATimestamp (text : List Char)
  deriving DecidableEq

def validateReply (unicode : Unicode) (raw : Bytes) : Except ReplyError (List Char) :=
  if raw.isEmpty then .error .empty
  else match Utf8.decode raw with
    | none => .error .notUtf8
    | some decoded =>
        let text := strip decoded
        if "ERROR:".toList.isPrefixOf text then .error (.rejected text)
        else match strptime? unicode text with
          | none => .error (.notATimestamp text)
          | some _ => .ok text

/-! ## Times -/

/-- The end of the year 9999. -/
def lastSecond : ℕ := 253402300800

theorem gmtime_year {now : ℕ} (h : now < lastSecond) :
    1970 ≤ (gmtime now).date.year ∧ (gmtime now).date.year < 10000 := by
  have hfirst : yearOf 719162 = 1970 := yearOf_eq (by decide) (by decide)
  have hmono := yearOf_mono (Nat.le_add_right 719162 (now / 86400))
  refine ⟨hfirst ▸ hmono, ?_⟩
  by_contra hlate
  have hbegins := daysBeforeYear_mono (by decide) (Nat.le_of_not_lt hlate)
  have hday : daysBeforeYear (gmtime now).date.year ≤ 719162 + now / 86400 :=
    daysBeforeYear_yearOf _
  have h10000 : daysBeforeYear 10000 = 3652059 := by decide
  unfold lastSecond at h
  omega

/-- **The text of a time is read back**, to the second. -/
theorem strptime?_utcTime (unicode : Unicode) {now : ℕ} (h : now < lastSecond) :
    strptime? unicode (utcTime now) = some (gmtime now) := by
  obtain ⟨hyear, hyear'⟩ := gmtime_year h
  refine strptime?_strftime unicode (ofDay_valid _) ⟨?_, ?_, ?_⟩ (by omega) hyear'
  · show now % 86400 / 3600 < 24
    omega
  · show now % 3600 / 60 < 60
    omega
  · exact Nat.mod_lt _ (by decide)

/-! ## Replies -/

/-- A text between two characters that are no white space. -/
theorem strip_between {c d : Char} (hc : isSpace c = false) (hd : isSpace d = false)
    (s : List Char) : strip (c :: s ++ [d]) = c :: s ++ [d] := by
  have hdrop : (c :: s ++ [d]).dropWhile isSpace = c :: s ++ [d] :=
    List.dropWhile_cons_of_neg (by rw [hc]; exact Bool.false_ne_true)
  exact @strip_of_ends [] _ _ (fun _ h => by cases h) hdrop hd

/-- A time begins and ends with a digit. -/
theorem utcTime_ends (now : ℕ) :
    ∃ c d s, utcTime now = c :: s ++ [d] ∧ c.isDigit = true ∧ d.isDigit = true := by
  obtain ⟨c, year, hyear⟩ := List.exists_cons_of_ne_nil (digits_ne_nil (gmtime now).date.year)
  have hc : c.isDigit = true := by
    apply isDigit_of_mem_digits
    rw [hyear]
    exact List.mem_cons_self
  have hsecond : (gmtime now).second < 60 := Nat.mod_lt _ (by decide)
  refine ⟨c, ((gmtime now).second % 10).digitChar, year ++ '-' :: (two (gmtime now).date.month ++
    '-' :: (two (gmtime now).date.day ++ ' ' :: (two (gmtime now).hour ++ ':' ::
      (two (gmtime now).minute ++ ':' :: [((gmtime now).second / 10).digitChar])))), ?_, hc,
    digitChar_isDigit _ (Nat.mod_lt _ (by decide))⟩
  rw [utcTime, strftime, hyear, two_eq _ (by omega : (gmtime now).second < 100)]
  simp only [List.cons_append, List.append_assoc, List.nil_append]

/-- A reply that begins and ends without white space is taken as it is. -/
theorem validateReply_encode (unicode : Unicode) {text : List Char} (hne : text ≠ [])
    (hstrip : strip text = text) :
    validateReply unicode (Utf8.encode text) =
      if "ERROR:".toList.isPrefixOf text then .error (.rejected text)
      else match strptime? unicode text with
        | none => .error (.notATimestamp text)
        | some _ => .ok text := by
  have hempty : ¬ (Utf8.encode text).isEmpty = true := by
    rwa [List.isEmpty_iff, Utf8.encode_eq_nil_iff]
  rw [validateReply, if_neg hempty]
  simp only [Utf8.decode_encode, hstrip]

theorem validateReply_utcTime (unicode : Unicode) {now : ℕ} (h : now < lastSecond) :
    validateReply unicode (Utf8.encode (utcTime now)) = .ok (utcTime now) := by
  obtain ⟨c, d, s, htext, hc, hd⟩ := utcTime_ends now
  have hstrip : strip (utcTime now) = utcTime now := by
    rw [htext]
    exact strip_between (not_isSpace_of_isDigit hc) (not_isSpace_of_isDigit hd) s
  have herror : ¬ "ERROR:".toList.isPrefixOf (utcTime now) = true := by
    rw [List.isPrefixOf_iff_prefix, htext]
    rintro ⟨rest, hrest⟩
    have hE : 'E' = c := (List.cons.inj hrest).1
    rw [← hE] at hc
    cases hc
  have hne : utcTime now ≠ [] := by
    rw [htext]
    exact List.cons_ne_nil _ _
  rw [validateReply_encode unicode hne hstrip, if_neg herror, strptime?_utcTime unicode h]

/-- No error ends in white space. -/
theorem errorReply_ends (exc : RequestError) :
    ∃ s d, errorReply exc = 'E' :: s ++ [d] ∧ isSpace d = false := by
  obtain ⟨front, hfront⟩ : ∃ front, "ERROR: ".toList = 'E' :: front := ⟨_, rfl⟩
  -- every text of an error ends in a character that `strip` leaves
  have hlast : ∀ (s : List Char) (d : Char), exc.text = s ++ [d] →
      errorReply exc = 'E' :: (front ++ s) ++ [d] := by
    intro s d h
    unfold errorReply
    rw [h, hfront, List.cons_append, List.cons_append, List.append_assoc]
  cases exc with
  | empty => exact ⟨_, 't', hlast "empty reques".toList 't' rfl, by decide⟩
  | tooLarge bytes =>
      have htext : RequestError.text (.tooLarge bytes) =
          "request too large (".toList ++ digits bytes ++ " bytes".toList ++ [')'] := by
        rw [List.append_assoc _ " bytes".toList]
        rfl
      exact ⟨_, ')', hlast _ _ htext, by decide⟩
  | notUtf8 => exact ⟨_, '8', hlast "request is not valid UTF-".toList '8' rfl, by decide⟩
  | blank => exact ⟨_, 't', hlast "blank reques".toList 't' rfl, by decide⟩
  | unknown text =>
      exact ⟨_, '\'', hlast ("unknown request '".toList ++ text) '\'' rfl, by decide⟩

theorem validateReply_errorReply (unicode : Unicode) (exc : RequestError) :
    validateReply unicode (Utf8.encode (errorReply exc)) = .error (.rejected (errorReply exc)) := by
  obtain ⟨s, d, htext, hd⟩ := errorReply_ends exc
  have hstrip : strip (errorReply exc) = errorReply exc := by
    rw [htext]
    exact strip_between (by decide) hd s
  have herror : "ERROR:".toList.isPrefixOf (errorReply exc) = true :=
    List.isPrefixOf_iff_prefix.mpr ⟨' ' :: exc.text, rfl⟩
  have hne : errorReply exc ≠ [] := by
    rw [htext]
    exact List.cons_ne_nil _ _
  rw [validateReply_encode unicode hne hstrip, if_pos herror]

/-- **What the client makes of the answer to a request.** -/
theorem validateReply_answer (unicode : Unicode) (raw : Bytes) {now : ℕ} (h : now < lastSecond) :
    validateReply unicode (Utf8.encode (answer unicode raw now)) =
      match validateRequest unicode raw with
      | .ok _ => .ok (utcTime now)
      | .error exc => .error (.rejected (errorReply exc)) := by
  unfold answer
  cases validateRequest unicode raw with
  | ok text => exact validateReply_utcTime unicode h
  | error exc => exact validateReply_errorReply unicode exc

/-- The client's own request is valid. -/
theorem validateRequest_timeRequest (unicode : Unicode) :
    validateRequest unicode (Utf8.encode timeRequest) = .ok timeRequest := by
  have hascii : ∀ c ∈ timeRequest, c.toNat < 128 := by decide
  have hupper : unicode.upper timeRequest = "TIME REQUEST".toList := by
    have hchars : unicode.upper timeRequest = timeRequest.flatMap fun c => [c.toUpper] :=
      List.flatMap_congr fun c hc => unicode.upperChar_ascii c (hascii c hc)
    rw [hchars]
    decide
  have hstrip : strip timeRequest = timeRequest := by decide
  have hlength : (Utf8.encode timeRequest).length = 12 := Utf8.length_encode_ascii hascii
  have hempty : ¬ (Utf8.encode timeRequest).isEmpty = true := by
    rw [List.isEmpty_iff, Utf8.encode_eq_nil_iff]
    decide
  have hlarge : ¬ (Utf8.encode timeRequest).length > maxRequestBytes := by
    rw [hlength]
    decide
  rw [validateRequest, if_neg hempty, if_neg hlarge]
  simp only [Utf8.decode_encode, hstrip]
  rw [if_neg (by decide), hupper, if_neg (by decide)]

end Utc
