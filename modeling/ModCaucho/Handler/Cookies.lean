import ModCaucho.Handler.SessionId

/-!
# The cookies of a request

A browser sends its cookies as pairs of a name and a value, separated by `; `.
`get_session_index` does not take the pairs apart: it looks for the text `JSESSIONID=`
and decodes what follows its first occurrence in each header. Since neither names nor
values contain `=` or `;`, such an occurrence is the end of a name and its `=`, so that
a header counts with the value of its first pair whose name ends in `JSESSIONID`.
-/

namespace ModCaucho

open CString Subword

/-- A cookie: neither its name nor its value contains `;` or `=`. -/
structure CookiePair where
  name : List Byte
  value : List Byte
  name_free : 59 ∉ name ∧ 61 ∉ name
  value_free : 59 ∉ value ∧ 61 ∉ value

namespace CookiePair

def text (pair : CookiePair) : List Byte := pair.name ++ 61 :: pair.value

end CookiePair

/-- The text of a `Cookie` header. -/
def cookieText (pairs : List CookiePair) : List Byte := [59, 32].intercalate (pairs.map (·.text))

def isCookieKey (key : Option (List Byte)) : Prop :=
  ∃ name ∈ key, strcaseEq name (ascii "Cookie".toList)

/-- A header of a request: cookies, or anything under another key. -/
inductive Header where
  | cookie (key : Option (List Byte)) (hkey : isCookieKey key) (pairs : List CookiePair)
  | other (key : Option (List Byte)) (hkey : ¬ isCookieKey key) (val : List Byte)

namespace Header

/-- The header as an entry of the table of the request. -/
def entry : Header → Option (List Byte) × List Byte
  | cookie key _ pairs => (key, cookieText pairs)
  | other key _ val => (key, val)

def pairs : Header → List CookiePair
  | cookie _ _ pairs => pairs
  | other _ _ _ => []

end Header

/-- The name of the cookie of a session. -/
def sessionCookie : List Byte := ascii "JSESSIONID".toList

/-- The number of the host that a session id names, or -1. -/
def idHost (id : List Byte) : ℤ := (decodeSession (Mem.ofString id fun _ => 0)).1

/-- The number that what follows the first `;jsessionid=` of the URI names, or -1. -/
def uriHost (uri : List Byte) : ℤ :=
  match find uriName uri with
  | some found => idHost (found.drop uriName.length)
  | none => -1

/-- The first session id that names a host decides, and the URI where none does. -/
def firstHost (uri : List Byte) (ids : List (List Byte)) : ℤ :=
  ((ids.map idHost).find? (0 ≤ ·)).getD (uriHost uri)

/-- The session ids under the exact name of the cookie, in order. -/
def exactIds (hdrs : List Header) : List (List Byte) :=
  hdrs.flatMap fun hdr => (hdr.pairs.filter (·.name == sessionCookie)).map (·.value)

def CookiePair.marked (pair : CookiePair) : Bool := sessionCookie.isSuffixOf pair.name

/-- The session ids that are looked at, in order: one for each header. -/
def markedIds (hdrs : List Header) : List (List Byte) :=
  hdrs.filterMap fun hdr => (hdr.pairs.find? (·.marked)).map (·.value)

/-- The header without the cookies whose name does not end in `JSESSIONID`. -/
def Header.keepMarked : Header → Header
  | .cookie key hkey pairs => .cookie key hkey (pairs.filter (·.marked))
  | .other key hkey val => .other key hkey val

/-! ## Decoding -/

theorem decodeLoop_congr {session session' : Mem} {n : ℕ} (value : ℤ)
    (h : ∀ i < n, session i = session' i) :
    decodeLoop session n value = decodeLoop session' n value := by
  induction n generalizing value with
  | zero => rfl
  | succ n ih =>
      have hbelow : ∀ i < n, session i = session' i := fun i hi => h i (Nat.lt_succ_of_lt hi)
      unfold decodeLoop
      rw [h n (Nat.lt_succ_self n)]
      simp only [ih _ hbelow]

/-- What is decoded depends on the session id alone, which ends before a `;`. -/
theorem decodeSession_eq_idHost {id rest : List Byte} (beyond : Mem)
    (hrest : ∀ b ∈ rest.head?, b = 59) :
    (decodeSession (Mem.ofString (id ++ rest) beyond)).1 = idHost id := by
  unfold idHost
  by_cases hid : IsSessionId id
  · have hlong := hid.1
    have hsame : ∀ i < 3,
        Mem.ofString (id ++ rest) beyond i = Mem.ofString id (fun _ => 0) i := by
      intro i hi
      rw [ofString_get _ _ (by rw [List.length_append]; omega), ofString_get _ _ (by omega),
        List.getD_append _ _ _ _ (by omega)]
    rw [decodeSession, decodeSession, decodeLoop_congr 0 hsame]
  · have hnot : ¬ IsSessionId (id ++ rest) := by
      rintro ⟨hlong, hall⟩
      have hshort : id.length < 3 := by
        by_contra hge
        rw [List.take_append_of_le_length (by omega)] at hall
        exact hid ⟨by omega, hall⟩
      cases rest with
      | nil => simp at hlong; omega
      | cons b rest =>
          obtain rfl : b = 59 := hrest b rfl
          have hmem : (59 : Byte) ∈ (id ++ 59 :: rest).take 3 := by
            obtain ⟨k, hk⟩ : ∃ k, 3 - id.length = k + 1 := ⟨2 - id.length, by omega⟩
            rw [List.take_append, hk, List.take_succ_cons]
            exact List.mem_append_right _ List.mem_cons_self
          exact absurd (hall 59 hmem) (by decide)
    rw [decodeSession_eq_neg_one _ hnot, decodeSession_eq_neg_one _ hid]

theorem cseSessionFromString_uri (beyond : List Byte → Mem) (uri : List Byte) :
    (cseSessionFromString beyond uri uriName).1 = uriHost uri := by
  unfold cseSessionFromString uriHost
  cases find uriName uri with
  | none => rfl
  | some found =>
      have hhost := @decodeSession_eq_idHost (found.drop uriName.length) []
        (beyond uri) (by simp)
      rw [List.append_nil] at hhost
      exact hhost

/-! ## One header -/

theorem marked_iff (pair : CookiePair) : pair.marked ↔ sessionCookie <:+ pair.name :=
  List.isSuffixOf_iff_suffix

theorem text_append (pair : CookiePair) (rest : List Byte) :
    pair.text ++ rest = pair.name ++ 61 :: (pair.value ++ rest) := by
  unfold CookiePair.text
  rw [List.append_assoc, List.cons_append]

/-- Behind a value and a space, the mark is looked for in the name alone. -/
theorem find_text {front : List Byte} (pair : CookiePair) (rest : List Byte)
    (hfree : 61 ∉ front) (hfront : front = [] ∨ ∃ value, front = value ++ [59, 32]) :
    find cookieName (front ++ (pair.text ++ rest)) =
      if pair.marked then some (cookieName ++ (pair.value ++ rest))
      else find cookieName (pair.value ++ rest) := by
  have hname : cookieName = sessionCookie ++ [61] := by decide
  have hends : sessionCookie <:+ front ++ pair.name ↔ pair.marked := by
    rw [marked_iff]
    rcases hfront with rfl | ⟨value, rfl⟩
    · rfl
    · have hsplit : value ++ [59, 32] ++ pair.name = (value ++ [59]) ++ 32 :: pair.name := by simp
      rw [hsplit]
      exact suffix_behind_iff _ _ (by decide)
  have hmem : 61 ∉ front ++ pair.name := by
    rw [List.mem_append, not_or]
    exact ⟨hfree, pair.name_free.2⟩
  rw [text_append, ← List.append_assoc, hname,
    find_mark _ (by decide) (by decide) hmem]
  exact if_congr hends (by simp) rfl

/-- The search in the text of the cookies stops in front of the value of the first one
whose name ends in `JSESSIONID`. -/
theorem find_cookieText {front : List Byte} (pairs : List CookiePair) (hfree : 61 ∉ front)
    (hfront : front = [] ∨ ∃ value, front = value ++ [59, 32]) :
    (pairs.find? (·.marked) = none → find cookieName (front ++ cookieText pairs) = none) ∧
      ∀ pair, pairs.find? (·.marked) = some pair → ∃ rest,
        find cookieName (front ++ cookieText pairs) = some (cookieName ++ (pair.value ++ rest)) ∧
          ∀ b ∈ rest.head?, b = 59 := by
  have habsent : ∀ text : List Byte, 61 ∉ text → find cookieName text = none := fun text htext =>
    (find_eq_none_iff _ _).mpr fun hin => htext (hin.subset (by decide))
  induction pairs generalizing front with
  | nil =>
      refine ⟨fun _ => ?_, fun pair h => by cases h⟩
      rw [cookieText, List.map_nil, List.intercalate_nil, List.append_nil]
      exact habsent front hfree
  | cons pair pairs ih =>
      -- the last pair has no separator behind it
      obtain ⟨rest, htext, hhead, hrest⟩ : ∃ rest,
          cookieText (pair :: pairs) = pair.text ++ rest ∧ (∀ b ∈ rest.head?, b = 59) ∧
            (rest = [] ∧ pairs = [] ∨ rest = [59, 32] ++ cookieText pairs) := by
        cases pairs with
        | nil => exact ⟨[], by simp [cookieText], by simp, Or.inl ⟨rfl, rfl⟩⟩
        | cons pair' pairs =>
            exact ⟨[59, 32] ++ cookieText (pair' :: pairs), by simp [cookieText], by simp,
              Or.inr rfl⟩
      rw [htext, find_text pair rest hfree hfront, List.find?_cons]
      cases hmarked : pair.marked with
      | true =>
          refine ⟨fun h => by simp at h, fun pair' h => ?_⟩
          rw [if_pos rfl]
          obtain rfl : pair = pair' := Option.some_inj.mp h
          exact ⟨rest, rfl, hhead⟩
      | false =>
          rw [if_neg Bool.false_ne_true]
          simp only
          rcases hrest with ⟨rfl, rfl⟩ | rfl
          · refine ⟨fun _ => ?_, fun pair' h => by simp at h⟩
            rw [List.append_nil]
            exact habsent _ pair.value_free.2
          · rw [← List.append_assoc]
            refine ih ?_ (Or.inr ⟨pair.value, rfl⟩)
            rw [List.mem_append, not_or]
            exact ⟨pair.value_free.2, by decide⟩

/-- A header of cookies counts with the value of its first pair whose name ends in
`JSESSIONID`. -/
theorem cseSessionFromString_cookieText (beyond : List Byte → Mem) (pairs : List CookiePair) :
    (cseSessionFromString beyond (cookieText pairs) cookieName).1 =
      ((pairs.find? (·.marked)).map fun pair => idHost pair.value).getD (-1) := by
  have hfind := @find_cookieText [] pairs (by simp) (Or.inl rfl)
  rw [List.nil_append] at hfind
  unfold cseSessionFromString
  cases hpair : pairs.find? (·.marked) with
  | none =>
      rw [hfind.1 hpair]
      rfl
  | some pair =>
      obtain ⟨rest, hfound, hhead⟩ := hfind.2 pair hpair
      rw [hfound]
      simp only [List.drop_left, Option.map_some, Option.getD_some]
      exact decodeSession_eq_idHost _ hhead

/-! ## All headers -/

theorem firstHost_cons (uri id : List Byte) (ids : List (List Byte)) :
    firstHost uri (id :: ids) = if idHost id ≥ 0 then idHost id else firstHost uri ids := by
  unfold firstHost
  rw [List.map_cons, List.find?_cons]
  by_cases hid : 0 ≤ idHost id <;> simp [hid]

theorem getSessionIndex_markedIds (beyond : List Byte → Mem) (uri : List Byte)
    (hdrs : List Header) :
    (getSessionIndex beyond uri (hdrs.map (·.entry))).1 = firstHost uri (markedIds hdrs) := by
  induction hdrs with
  | nil => exact cseSessionFromString_uri beyond uri
  | cons hdr hdrs ih =>
      unfold markedIds at ih ⊢
      rw [List.map_cons, List.filterMap_cons]
      cases hdr with
      | other key hkey val =>
          have hnot : ¬ ∃ name ∈ key, strcaseEq name (ascii "Cookie".toList) := hkey
          rw [Header.entry, getSessionIndex, if_neg hnot]
          exact ih
      | cookie key hkey pairs =>
          have hone := cseSessionFromString_cookieText beyond pairs
          have hcookie : ∃ name ∈ key, strcaseEq name (ascii "Cookie".toList) := hkey
          rw [Header.entry, getSessionIndex, if_pos hcookie, Header.pairs]
          cases hpair : pairs.find? (·.marked) with
          | none =>
              rw [hpair, Option.map_none, Option.getD_none] at hone
              simp only [hone]
              exact ih
          | some pair =>
              rw [hpair, Option.map_some, Option.getD_some] at hone
              simp only [Option.map_some, firstHost_cons, hone]
              split
              · rfl
              · exact ih

theorem markedIds_keepMarked (hdrs : List Header) :
    markedIds (hdrs.map (·.keepMarked)) = markedIds hdrs := by
  unfold markedIds
  rw [List.filterMap_map]
  congr 1
  funext hdr
  cases hdr with
  | other key hkey val => rfl
  | cookie key hkey pairs => simp [Header.keepMarked, Header.pairs, List.find?_filter]

/-- In each header of cookies the first one whose name ends in `JSESSIONID` counts, and the
first of these that names a host decides. Where none does the URI decides. The other
cookies have no influence. -/
theorem getSessionIndex_cookies (beyond : List Byte → Mem) (uri : List Byte)
    (hdrs : List Header) :
    (getSessionIndex beyond uri (hdrs.map (·.entry))).1 = firstHost uri (markedIds hdrs) ∧
      (getSessionIndex beyond uri ((hdrs.map (·.keepMarked)).map (·.entry))).1 =
        (getSessionIndex beyond uri (hdrs.map (·.entry))).1 := by
  rw [getSessionIndex_markedIds, getSessionIndex_markedIds, markedIds_keepMarked]
  exact ⟨rfl, rfl⟩

/-- A cookie of another program whose name ends in that of the session. -/
def foreignCookie : CookiePair where
  name := ascii "XJSESSIONID".toList
  value := ascii "baa".toList
  name_free := by decide
  value_free := by decide

theorem isCookieKey_self : isCookieKey (some (ascii "Cookie".toList)) :=
  ⟨_, rfl, by decide⟩

/-- The cookie of the other program sends the request to the second host. -/
theorem not_getSessionIndex_exact :
    ¬ ∀ (beyond : List Byte → Mem) (uri : List Byte) (hdrs : List Header),
      (getSessionIndex beyond uri (hdrs.map (·.entry))).1 = firstHost uri (exactIds hdrs) := by
  intro hclaim
  have hindex := hclaim (fun _ _ => 0) [] [.cookie _ isCookieKey_self [foreignCookie]]
  rw [getSessionIndex_markedIds] at hindex
  exact absurd hindex (by decide)

end ModCaucho
