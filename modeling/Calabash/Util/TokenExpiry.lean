import Calabash.Util.Base64Text
import Calabash.Util.Forgery

/-!
# What an issued token comes back as

The expiry text counts whole seconds, so the end time of a token loses its fraction on the way.
Everything else is given back, for every key and every user id whose token is short enough for
the counter of `Decode`.
-/

namespace Calabash
namespace Token

open Base64 (Ascii)

/-- `system_clock` counts nanoseconds. -/
def second : ℤ := 10 ^ 9

/-- `to_time_t`, which drops the fraction. -/
def toTimeT (t : ℤ) : ℤ := t.tdiv second

/-- `from_time_t`. -/
def fromTimeT (s : ℤ) : ℤ := s * second

/-- The clock of `put_time` after `localtime` and of `mktime` after `get_time`, which work on
whole seconds. -/
def secondsClock (put : ℤ → Bytes) (get : Bytes → ℤ)
    (form : ∀ s, List.Forall₂ (fun c k => if k = 'd' then isDigit c = true else [c] = ascii [k])
      (put s) ['|', 'd', 'd', 'd', 'd', '-', 'd', 'd', '-', 'd', 'd', ' ',
        'd', 'd', ':', 'd', 'd', ':', 'd', 'd']) : Clock where
  putTime t := put (toTimeT t)
  getTime text := fromTimeT (get text)
  form t := form (toTimeT t)

/-- The token of a user id is accepted with the same key: as one of that user, with the end
time cut to whole seconds, and in time exactly until then. -/
def ComesBack (clock : Clock) (u key : Bytes) (effectiveTime now now' later : ℤ) : Prop :=
  ∃ token t, (issue u effectiveTime now now').encode clock key = some token ∧
    parse clock token key later = some t ∧ t.isUseful = true ∧ t.userId = u ∧
    t.endTime = fromTimeT (toTimeT (now + effectiveTime)) ∧
    (t.isInTime = true ↔ later ≤ fromTimeT (toTimeT (now + effectiveTime)))

theorem length_putTime (clock : Clock) (t : ℤ) : (clock.putTime t).length = 20 :=
  (clock.form t).length_eq

/-- The length of what is put through `Base64` for a user id. -/
theorem length_signed_issued {clock : Clock} {u expiry : Bytes} {t : ℤ}
    (hexpiry : clock.putTime t = bar :: expiry) : (signed u expiry).length = u.length + 52 := by
  have hlen := length_putTime clock t
  rw [hexpiry, List.length_cons] at hlen
  rw [length_signed]
  omega

/-- A token that is read at all is short enough for the counter. -/
theorem length_of_parse {clock : Clock} {u key token : Bytes} {effectiveTime now now' later : ℤ}
    {t : Token} (hencode : (issue u effectiveTime now now').encode clock key = some token)
    (hparse : parse clock token key later = some t) : u.length + 52 < 3 * 2 ^ 29 := by
  obtain ⟨expiry, hexpiry⟩ := putTime_eq clock (now + effectiveTime)
  obtain ⟨-, hbase⟩ := decode_issued hexpiry hencode
  obtain ⟨pass, hpass, -⟩ := Option.bind_eq_some_iff.mp hparse
  rw [Base64.decode_eq hbase, length_xorFrom, length_signed_issued hexpiry] at hpass
  split at hpass
  · next hroom =>
    rw [Base64.Room] at hroom
    omega
  · cases hpass

/-- What the token of a user id without separator comes back as. -/
theorem parse_issued {clock : Clock} {u key : Bytes} (hkey : key ≠ []) (hascii : Ascii key)
    (hu : Ascii u) (hbar : bar ∉ u) {effectiveTime now : ℤ} {expiry : Bytes}
    (hexpiry : clock.putTime (now + effectiveTime) = bar :: expiry)
    (hlen : u.length + 52 < 3 * 2 ^ 29) (now' later : ℤ) :
    ∃ token, (issue u effectiveTime now now').encode clock key = some token ∧
      parse clock token key later =
        some ⟨true, later ≤ clock.getTime expiry, u, clock.getTime expiry⟩ := by
  have hxor : xorKey key (signed u expiry) = some (xorFrom key 0 (signed u expiry)) :=
    if_neg fun h => hkey h.1
  have hseven : Ascii (xorFrom key 0 (signed u expiry)) := by
    apply ascii_xorFrom hascii (ascii_signed hu _)
    rw [← hexpiry]
    exact ascii_putTime clock _
  have hsize : (xorFrom key 0 (signed u expiry)).length = u.length + 52 := by
    rw [length_xorFrom, length_signed_issued hexpiry]
  obtain ⟨token, htoken⟩ := Base64.exists_encode (by rw [hsize]; omega) hseven
  have hdecode : Base64.decode token = some (xorFrom key 0 (signed u expiry)) := by
    rw [Base64.decode_eq htoken, hsize, if_pos]
    rw [Base64.Room]
    omega
  refine ⟨token, ?_, parse_signed later hdecode (xorKey_xorKey hxor) hbar⟩
  rw [encode, toString_issue hexpiry, hxor]
  exact htoken

/-- The token comes back as it was issued exactly when the user id leaves room for the counter
of `Decode`. -/
theorem comesBack_iff {put : ℤ → Bytes} {get : Bytes → ℤ} {form} {u key : Bytes}
    {effectiveTime now now' later : ℤ} (hkey : key ≠ []) (hascii : Ascii key) (hu : Ascii u)
    (hbar : bar ∉ u)
    (hinverse : get ((put (toTimeT (now + effectiveTime))).drop 1) =
      toTimeT (now + effectiveTime)) :
    ComesBack (secondsClock put get form) u key effectiveTime now now' later ↔
      u.length < 1610612684 := by
  constructor
  · rintro ⟨token, t, hencode, hparse, -⟩
    have hlen := length_of_parse hencode hparse
    omega
  · intro hlen
    obtain ⟨expiry, hexpiry⟩ :=
      putTime_eq (secondsClock put get form) (now + effectiveTime)
    obtain ⟨token, hencode, hparse⟩ :=
      parse_issued hkey hascii hu hbar hexpiry (by omega) now' later
    have htime : (secondsClock put get form).getTime expiry =
        fromTimeT (toTimeT (now + effectiveTime)) := by
      have hput : put (toTimeT (now + effectiveTime)) = bar :: expiry := hexpiry
      rw [hput, List.drop_one, List.tail_cons] at hinverse
      exact congrArg fromTimeT hinverse
    refine ⟨token, _, hencode, hparse, rfl, rfl, htime, ?_⟩
    rw [htime]
    exact decide_eq_true_iff

/-- A token of `bob` that is issued and read at the beginning of 1970. -/
theorem comesBack_bob :
    ComesBack (secondsClock (fun _ => epoch.putTime 0) (fun _ => 0) fun _ => epoch.form 0)
        (ascii ['b', 'o', 'b']) (ascii ['k', 'e', 'y']) 0 0 0 0 ↔
      (ascii ['b', 'o', 'b']).length < 1610612684 :=
  comesBack_iff (by decide) (by decide +kernel) (by decide +kernel) (by decide +kernel) rfl

/-- The token of 1610612687 times `'A'` does not come back. -/
theorem comesBack_fails : ¬ ∀ (put : ℤ → Bytes) (get : Bytes → ℤ) (form) (u key : Bytes)
    (effectiveTime now now' later : ℤ), key ≠ [] → Ascii key → Ascii u → bar ∉ u →
    get ((put (toTimeT (now + effectiveTime))).drop 1) = toTimeT (now + effectiveTime) →
    ComesBack (secondsClock put get form) u key effectiveTime now now' later := by
  intro hall
  have hlen : (List.replicate 1610612687 (65 : UInt8)).length = 1610612687 := List.length_replicate
  have hu : Ascii (List.replicate 1610612687 65) := by
    intro c hc
    rw [List.eq_of_mem_replicate hc]
    decide
  have hbar : bar ∉ List.replicate 1610612687 65 := by
    intro h
    exact absurd (List.eq_of_mem_replicate h) (by decide)
  obtain ⟨token, t, hencode, hparse, -⟩ :=
    hall (fun _ => epoch.putTime 0) (fun _ => 0) (fun _ => epoch.form 0) _
      (ascii ['k', 'e', 'y']) 0 0 0 0 (by decide) (by decide +kernel) hu hbar rfl
  have hshort := length_of_parse hencode hparse
  rw [hlen] at hshort
  exact absurd hshort (by decide)

end Token
end Calabash
