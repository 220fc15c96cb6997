-- The IPv6 parser: the loop over the eight places of the array, and the shift that
-- opens the gap of a `::`. Its spec is a scan of what is left of the text, with the
-- groups so far in a list that grows.
import Rmrf.Ip4Canonical

open fields machine numerals

namespace rmrf.net.details

/-! ## The parser -/

def net_to_host (order : ByteOrder) (netval : Nat) : Nat := host_to_net order netval

/-- The bytes that are written to `s6_addr`. -/
def inet6_array_to_saddr (ip6_comps : List Nat) : List Nat :=
  ip6_comps.flatMap fun hexlet => [hexlet >>> 8, hexlet &&& 0xff]

/-- The loop of `rshift_array` below `n`. Its `pos - shift` is a `size_t`, which is
never below zero. -/
def rshift_array_loop {α : Type} [OfNat α 0] (start shift : Nat) : Nat → List α → Option (List α)
  | 0, a => some a
  | n + 1, a =>
    if n ≥ start + shift then do
      let x ← a[sizeSub n shift]?
      let a ← store a n x
      let a ← store a (sizeSub n shift) 0
      rshift_array_loop start shift n a
    else some a

/-- What `start` and the places behind it hold goes up by `shift` places. -/
def rshift_array {α : Type} [OfNat α 0] (a : List α) (start shift : Nat) : Option (List α) :=
  if start > a.length - 1 then some a else rshift_array_loop start shift a.length a

def remaining_chars (str : List Char) (pos : Nat) : Nat := sizeSub (str.length - 1) pos

/-- The test `remaining_chars(pos) >= k + 1 && str[pos + k] == ':'`. -/
def colon_at (str : List Char) (pos k : Nat) : Option Bool := do
  if remaining_chars str pos ≥ k + 1 then return (← str[pos + k]?) = ':' else return false

/-- The test for a shortener token at `idx`. -/
def shortener_at (str : List Char) (idx : Nat) : Option Bool := do
  if remaining_chars str idx ≥ 2 then
    if (← str[idx]?) = ':' then return (← str[idx + 1]?) = ':' else return false
  else return false

/-- The place behind the component at `idx`. -/
def next_idx (str : List Char) (idx : Nat) : Option Nat := do
  let next_sep ← find_chr str idx ':'
  if next_sep = -1 then return str.length - 1
  else if ← colon_at str next_sep.toNat 1 then return next_sep.toNat
  else return next_sep.toNat + 1

/-- The embedded IPv4 address at `idx`, in host order. A call that fails leaves the
`v4_addr` of the loop as it was. -/
def embedded_at (order : ByteOrder) (str : List Char) (i idx : Nat) (shortener_pos : Int) :
    Option (Option Nat) := do
  if i = 6 ∨ (i < 6 ∧ shortener_pos ≠ -1) then
    let (status, v4_addr) ← inet_addr_canonical_at order str idx 0xFFFFFFFF
    if status ≠ -1 then return some (net_to_host order v4_addr) else return none
  else return none

/-- The loop of `inet6_aton`, with `n` places to go: the array and the place in the
string where it ends, or nothing where the function returns -1. -/
def inet6_loop (order : ByteOrder) (str : List Char) :
    Nat → List Nat → Int → Nat → Option (Option (List Nat × Nat))
  | 0, comps, _, idx => some (some (comps, idx))
  | n + 1, comps, shortener_pos, idx => do
    let i := 8 - (n + 1)
    if idx = str.length - 1 then
      if shortener_pos = -1 then return none
      else return some (← rshift_array comps shortener_pos.toNat (8 - i), idx)
    else match ← embedded_at order str i idx shortener_pos with
    | some v4_addr =>
      let comps ← store comps i (v4_addr >>> 16 &&& 0xffff)
      let comps ← store comps (i + 1) (v4_addr &&& 0xffff)
      if shortener_pos ≠ -1 then
        return some (← rshift_array comps shortener_pos.toNat (8 - (i + 2)), str.length - 1)
      else return some (comps, str.length - 1)
    | none =>
      if ← shortener_at str idx then
        if shortener_pos ≠ -1 then return none
        else if ← colon_at str idx 2 then return none
        else inet6_loop order str n comps i (idx + 2)
      else
        let hexlet ← parse_inet6_hexlet str idx
        if hexlet = -1 then return none
        else
          let comps ← store comps i (hexlet.toNat % 2 ^ 16)
          inet6_loop order str n comps shortener_pos (← next_idx str idx)

/-- The value that is returned, and the bytes of `in6` after the call. -/
def inet6_aton (order : ByteOrder) (str : List Char) (in6 : List Nat) :
    Option (Int × List Nat) := do
  if str.length < 3 then return (-1, in6)
  if (← str[0]?) = ':' ∧ (← str[1]?) ≠ ':' then return (-1, in6)
  if (← str[str.length - 1]?) = ':' ∧ (← str[str.length - 2]?) ≠ ':' then return (-1, in6)
  match ← inet6_loop order str 8 (List.replicate 8 0) (-1) 0 with
  | none => return (-1, in6)
  | some (comps, idx) =>
    if idx ≠ str.length - 1 then return (-1, in6)
    else return (0, inet6_array_to_saddr comps)

/-! ## The shift -/

section Shift

variable {α : Type} [OfNat α 0]

/-- With room for them, the middle part goes behind the zeros, from its end on. -/
theorem rshift_array_loop_gap (pre m₁ m₂ : List α) {k : Nat} (hk : 0 < k) :
    rshift_array_loop pre.length k (pre.length + m₁.length + k)
        (pre ++ m₁ ++ List.replicate k 0 ++ m₂) =
      some (pre ++ List.replicate k 0 ++ m₁ ++ m₂) := by
  obtain ⟨j, rfl⟩ := Nat.exists_eq_add_of_lt hk
  rw [Nat.zero_add]
  induction m₁ using List.reverseRecOn generalizing m₂ with
  | nil =>
    simp only [List.length_nil, Nat.add_zero, List.append_nil, ← Nat.add_assoc]
    rw [rshift_array_loop, if_neg (by omega)]
  | append_singleton m₁ x ih =>
    have hn : pre.length + (m₁ ++ [x]).length + (j + 1) = pre.length + m₁.length + (j + 1) + 1 := by
      rw [List.length_append, List.length_singleton]
      omega
    have hback : sizeSub (pre.length + m₁.length + (j + 1)) (j + 1) = (pre ++ m₁).length := by
      rw [sizeSub_of_le (by omega), List.length_append]
      omega
    have hread : (pre ++ (m₁ ++ [x]) ++ List.replicate (j + 1) 0 ++ m₂)[(pre ++ m₁).length]? =
        some x := by simp
    have hfirst : store (pre ++ (m₁ ++ [x]) ++ List.replicate (j + 1) 0 ++ m₂)
        (pre.length + m₁.length + (j + 1)) x =
        some (pre ++ m₁ ++ x :: (List.replicate j 0 ++ x :: m₂)) := by
      have hat := store_append_cons (pre ++ m₁ ++ x :: List.replicate j 0) m₂ 0 x
      simpa [List.replicate_succ', Nat.add_assoc] using hat
    have hsecond := store_append_cons (pre ++ m₁) (List.replicate j 0 ++ x :: m₂) x 0
    rw [hn, rshift_array_loop, if_pos (by omega), hback]
    simp only [hread, hfirst, hsecond, Option.bind_eq_bind, Option.bind_some]
    have hrest := ih (x :: m₂)
    simpa [List.replicate_succ] using hrest

/-- With no room, the middle part is lost. -/
theorem rshift_array_loop_zero (pre m₁ m₂ : List α) :
    rshift_array_loop pre.length 0 (pre.length + m₁.length) (pre ++ m₁ ++ m₂) =
      some (pre ++ List.replicate m₁.length 0 ++ m₂) := by
  induction m₁ using List.reverseRecOn generalizing m₂ with
  | nil =>
    cases hpre : pre.length with
    | zero => simp [rshift_array_loop]
    | succ n => simp [rshift_array_loop]
  | append_singleton m₁ x ih =>
    have hback : sizeSub (pre.length + m₁.length) 0 = (pre ++ m₁).length := by
      rw [sizeSub_of_le (Nat.zero_le _), List.length_append, Nat.sub_zero]
    have hread : (pre ++ m₁ ++ x :: m₂)[(pre ++ m₁).length]? = some x := by simp
    have hlen : pre.length + m₁.length = (pre ++ m₁).length := List.length_append.symm
    have htext : pre ++ (m₁ ++ [x]) ++ m₂ = pre ++ m₁ ++ x :: m₂ := by simp
    rw [List.length_append, List.length_singleton, ← Nat.add_assoc, rshift_array_loop,
      if_pos (by omega), hback, htext, hlen]
    simp only [hread, store_append_cons, Option.bind_eq_bind, Option.bind_some]
    have hrest := ih (0 :: m₂)
    rw [List.replicate_succ']
    simpa using hrest

/-- The places from `p` on, with `k` free places before them; without free places they
are all cleared. -/
def opened (p : Nat) (a : List α) (k : Nat) : List α :=
  if k = 0 then a.take p ++ List.replicate (a.length - p) 0
  else a.take p ++ List.replicate k 0 ++ a.drop p

theorem rshift_array.spec {p : Nat} {a : List α} (hp : p < a.length) (k : Nat) :
    rshift_array (a ++ List.replicate k 0) p k = some (opened p a k) := by
  obtain ⟨pre, mid, rfl, rfl⟩ : ∃ pre mid, a = pre ++ mid ∧ p = pre.length :=
    ⟨a.take p, a.drop p, (List.take_append_drop p a).symm, by simp; omega⟩
  have hlen : (pre ++ mid ++ List.replicate k (0 : α)).length = pre.length + mid.length + k := by
    simp [Nat.add_assoc]
  unfold rshift_array opened
  rw [if_neg (by rw [hlen]; simp at hp; omega), hlen, List.take_left, List.drop_left]
  rcases Nat.eq_zero_or_pos k with rfl | hk
  · have hzero := rshift_array_loop_zero pre mid []
    rw [if_pos rfl, List.length_append, Nat.add_sub_cancel_left]
    simpa using hzero
  · have hgap := rshift_array_loop_gap pre mid [] hk
    rw [if_neg (by omega)]
    simpa using hgap

end Shift

/-! ## The separators -/

theorem remaining_chars_cstr {s : List Char} {pos : Nat} (h : pos ≤ s.length) :
    remaining_chars (cstr s) pos = s.length - pos := by
  unfold remaining_chars
  rw [length_cstr, Nat.add_sub_cancel, sizeSub_of_le h]

theorem getElem?_drop_cstr {s : List Char} {pos k : Nat} (h : k < s.length - pos) :
    ∃ c, (cstr s)[pos + k]? = some c ∧ (s.drop pos)[k]? = some c := by
  refine ⟨s[pos + k], ?_, ?_⟩
  · rw [getElem?_cstr (by omega), List.getElem?_eq_getElem (by omega)]
  · rw [List.getElem?_drop, List.getElem?_eq_getElem (by omega)]

theorem colon_at.spec {s : List Char} {pos : Nat} (h : pos ≤ s.length) (k : Nat) :
    colon_at (cstr s) pos k = some (decide ((s.drop pos)[k]? = some ':')) := by
  unfold colon_at
  rw [remaining_chars_cstr h]
  by_cases hk : s.length - pos ≥ k + 1
  · obtain ⟨c, hc, hd⟩ := getElem?_drop_cstr hk
    rw [if_pos hk, hc, hd]
    simp
  · rw [if_neg hk, List.getElem?_eq_none (by rw [List.length_drop]; omega)]
    rfl

/-- What follows a `::` at the head of a text. -/
def behindShortener : List Char → Option (List Char)
  | ':' :: ':' :: v => some v
  | _ => none

theorem behindShortener_eq_some_iff {u v : List Char} :
    behindShortener u = some v ↔ u = ':' :: ':' :: v := by
  unfold behindShortener
  split
  · simp
  · rename_i hne
    exact ⟨fun h => (by cases h), fun h => absurd h (hne v)⟩

theorem isSome_behindShortener (u : List Char) :
    (behindShortener u).isSome = decide (u[0]? = some ':' ∧ u[1]? = some ':') := by
  match u with
  | [] => rfl
  | [c] => cases hc : behindShortener [c] <;> simp_all [behindShortener]
  | c :: d :: v =>
    by_cases hcd : c = ':' ∧ d = ':'
    · obtain ⟨rfl, rfl⟩ := hcd
      rfl
    · have hnone : behindShortener (c :: d :: v) = none := by
        rw [Option.eq_none_iff_forall_ne_some]
        intro w hw
        rw [behindShortener_eq_some_iff] at hw
        simp at hw
        exact hcd ⟨hw.1, hw.2.1⟩
      rw [hnone]
      simpa using hcd

theorem behindShortener_eq_none {u : List Char} (h : ¬ (u[0]? = some ':' ∧ u[1]? = some ':')) :
    behindShortener u = none := by
  have hsome := isSome_behindShortener u
  rw [decide_eq_false h] at hsome
  exact Option.not_isSome_iff_eq_none.mp (by simp [hsome])

theorem shortener_at.spec {s : List Char} {idx : Nat} (h : idx ≤ s.length) :
    shortener_at (cstr s) idx = some (behindShortener (s.drop idx)).isSome := by
  rw [isSome_behindShortener]
  unfold shortener_at
  rw [remaining_chars_cstr h]
  by_cases hlen : s.length - idx ≥ 2
  · obtain ⟨c, hc, hd⟩ := getElem?_drop_cstr (show 0 < s.length - idx by omega)
    obtain ⟨c', hc', hd'⟩ := getElem?_drop_cstr (show 1 < s.length - idx by omega)
    rw [Nat.add_zero] at hc
    rw [if_pos hlen, hc, hc', hd, hd']
    by_cases hcolon : c = ':' <;> simp [hcolon]
  · rw [if_neg hlen, List.getElem?_eq_none (i := 1) (by rw [List.length_drop]; omega)]
    simp

/-- What follows a group, when the text behind its digits is `u`: a single separator is
skipped, and a `::` stays. -/
def after : List Char → List Char
  | ':' :: v => if v.head? = some ':' then ':' :: v else v
  | u => u

theorem next_idx.spec {s : List Char} {idx : Nat} (h : idx ≤ s.length) :
    ∃ j, next_idx (cstr s) idx = some j ∧ j ≤ s.length ∧
      s.drop j = after ((s.drop idx).drop (field ':' (s.drop idx)).length) := by
  unfold next_idx
  rw [find_chr.spec (by decide) s h]
  simp only [Option.bind_eq_bind, Option.bind_some]
  by_cases hmem : ':' ∈ s.drop idx
  · obtain ⟨f, v, hu, hf⟩ := List.eq_append_cons_of_mem hmem
    have hfield : field ':' (s.drop idx) = f := by rw [hu, field_append_cons hf]
    have hsep : s.drop (idx + f.length) = ':' :: v := by
      rw [← List.drop_drop, hu, List.drop_left]
    have hle : idx + f.length < s.length := by
      by_contra hge
      rw [List.drop_of_length_le (by omega)] at hsep
      cases hsep
    have hcast : ((idx : Int) + f.length).toNat = idx + f.length := by omega
    rw [if_pos hmem, hfield, if_neg (by omega), hcast, colon_at.spec (by omega), hsep, hu,
      List.drop_left]
    simp only [Option.bind_some, List.getElem?_cons_succ, ← List.head?_eq_getElem?, after]
    by_cases hcolon : v.head? = some ':'
    · rw [if_pos (decide_eq_true hcolon), if_pos hcolon]
      exact ⟨_, rfl, by omega, hsep⟩
    · rw [if_neg (by simpa using hcolon), if_neg hcolon]
      refine ⟨_, rfl, by omega, ?_⟩
      rw [← List.drop_drop, hsep, List.drop_one, List.tail_cons]
  · have hfield : field ':' (s.drop idx) = s.drop idx := field_of_not_mem hmem
    rw [if_neg hmem, if_pos rfl, hfield, List.drop_length, length_cstr, Nat.add_sub_cancel]
    exact ⟨s.length, rfl, Nat.le_refl _, List.drop_length⟩

/-! ## The scan -/

theorem quadWord_lt {t : List Char} {word : Nat} (h : quadWord t = some word) : word < 2 ^ 32 := by
  unfold quadWord at h
  split at h
  · rename_i a b c d _
    by_cases hquad : Octet a ∧ Octet b ∧ Octet c
    · rw [if_pos hquad] at h
      cases h
      exact BitVec.isLt _
    · rw [if_neg hquad] at h
      cases h
  · cases h

theorem net_to_host_host_to_net (order : ByteOrder) {word : Nat} (h : word < 2 ^ 32) :
    net_to_host order (host_to_net order word) = word := by
  cases order with
  | big => rfl
  | little => exact bswap32_bswap32 h

theorem embedded_at.spec (order : ByteOrder) {s : List Char} {idx : Nat} (h : idx ≤ s.length)
    (i : Nat) (shortener_pos : Int) :
    embedded_at order (cstr s) i idx shortener_pos =
      some (if i = 6 ∨ (i < 6 ∧ shortener_pos ≠ -1) then quadWord (s.drop idx) else none) := by
  unfold embedded_at
  split_ifs with hi
  · have hspec := inet_addr_canonical_at.spec order (s.take idx) (s.drop idx) 0xFFFFFFFF
    rw [List.take_append_drop, List.length_take, Nat.min_eq_left h] at hspec
    rw [hspec]
    cases hword : quadWord (s.drop idx) with
    | none =>
      rw [readQuad_none hword]
      rfl
    | some word =>
      rw [readQuad_some hword]
      simp [net_to_host_host_to_net order (quadWord_lt hword)]
  · rfl

/-- The two groups that an embedded address fills. -/
def halves (word : Nat) : List Nat := [word >>> 16 &&& 0xffff, word &&& 0xffff]

/-- The array when the text is over: the gap is opened, if there is one. -/
def closed (short : Option Nat) (done : List Nat) (k : Nat) : List Nat :=
  match short with
  | none => done
  | some p => opened p done k

/-- The embedded address that the parser looks for with `n + 1` places to go: in place
six, or before it when there was a `::`. -/
def embeddedWord (short : Option Nat) (n : Nat) (u : List Char) : Option Nat :=
  if n = 1 ∨ (n > 1 ∧ short ≠ none) then quadWord u else none

theorem embeddedWord_eq_some {short : Option Nat} {n word : Nat} {u : List Char}
    (h : embeddedWord short n u = some word) :
    (n = 1 ∨ (n > 1 ∧ short ≠ none)) ∧ quadWord u = some word := by
  unfold embeddedWord at h
  split_ifs at h with hplace
  exact ⟨hplace, h⟩

/-- The array that the parser makes of the rest of a text, with `n` places to go: `done`
holds the groups so far, and a zero at the place `short` of the `::`. -/
def scan (short : Option Nat) (done : List Nat) : Nat → List Char → Option (List Nat)
  | 0, u => if u = [] then some done else none
  | n + 1, u =>
    if u = [] then short.map fun p => opened p done (n + 1)
    else match embeddedWord short n u with
    | some word => some (closed short (done ++ halves word) (n - 1))
    | none =>
      match behindShortener u with
      | some v =>
        if short ≠ none ∨ v.head? = some ':' then none
        else scan (some done.length) (done ++ [0]) n v
      | none =>
        if Group (field ':' u) then
          scan short (done ++ [value 16 (field ':' u)]) n (after (u.drop (field ':' u).length))
        else none

section Scan

variable {short : Option Nat} {done : List Nat} {n : Nat} {u v : List Char}

theorem scan_end : scan short done (n + 1) [] = short.map fun p => opened p done (n + 1) := by
  rw [scan, if_pos rfl]

theorem scan_word {word : Nat} (hu : u ≠ []) (h : embeddedWord short n u = some word) :
    scan short done (n + 1) u = some (closed short (done ++ halves word) (n - 1)) := by
  rw [scan, if_neg hu, h]

theorem scan_shortener (h : embeddedWord short n (':' :: ':' :: v) = none) :
    scan short done (n + 1) (':' :: ':' :: v) =
      if short ≠ none ∨ v.head? = some ':' then none
      else scan (some done.length) (done ++ [0]) n v := by
  rw [scan, if_neg (List.cons_ne_nil _ _), h]
  rfl

theorem scan_group (hu : u ≠ []) (h : embeddedWord short n u = none)
    (hshort : behindShortener u = none) :
    scan short done (n + 1) u =
      if Group (field ':' u) then
        scan short (done ++ [value 16 (field ':' u)]) n (after (u.drop (field ':' u).length))
      else none := by
  rw [scan, if_neg hu, h]
  simp only [hshort]

end Scan

/-! ## The parser and the scan -/

/-- The `shortener_pos` of the parser. -/
def shortenerPos : Option Nat → Int
  | none => -1
  | some p => p

theorem shortenerPos_eq_iff (short : Option Nat) : shortenerPos short = -1 ↔ short = none := by
  cases short with
  | none => simp [shortenerPos]
  | some p => simp [shortenerPos]

/-- The array of a loop that ends at the end of the string. -/
def atEnd (s : List Char) (o : Option (List Nat × Nat)) : Option (List Nat) :=
  o.bind fun r => if r.2 = s.length then some r.1 else none

/-- A value goes to the first free place of the array. -/
theorem store_next (done : List Nat) (k x : Nat) :
    store (done ++ List.replicate (k + 1) 0) done.length x =
      some (done ++ [x] ++ List.replicate k 0) := by
  rw [List.replicate_succ, store_append_cons, List.append_assoc, List.singleton_append]

section Loop

variable (order : ByteOrder) {s : List Char} {n idx : Nat} {done : List Nat} {short : Option Nat}

/-- The end of the string, with places to go. -/
theorem inet6_loop_end (hn : done.length + (n + 1) = 8)
    (hshort : ∀ p, short = some p → p < done.length) :
    inet6_loop order (cstr s) (n + 1) (done ++ List.replicate (n + 1) 0) (shortenerPos short)
        s.length =
      some (short.map fun p => (opened p done (n + 1), s.length)) := by
  have hleft : 8 - (8 - (n + 1)) = n + 1 := by omega
  rw [inet6_loop, if_pos (by simp)]
  simp only [shortenerPos_eq_iff, hleft]
  cases short with
  | none => rfl
  | some p =>
    simp only [shortenerPos, Int.toNat_natCast, rshift_array.spec (hshort p rfl)]
    rfl

theorem embedded_at_loop (hidx : idx ≤ s.length) (hn : done.length + (n + 1) = 8) :
    embedded_at order (cstr s) done.length idx (shortenerPos short) =
      some (embeddedWord short n (s.drop idx)) := by
  have h6 : done.length = 6 ↔ n = 1 := by omega
  have hlt : done.length < 6 ↔ n > 1 := by omega
  rw [embedded_at.spec order hidx, embeddedWord]
  simp only [h6, hlt, ne_eq, shortenerPos_eq_iff]

/-- The embedded address fills two places, and then the gap is opened. -/
theorem inet6_loop_word {word : Nat} (hidx : idx < s.length) (hn : done.length + (n + 1) = 8)
    (hshort : ∀ p, short = some p → p < done.length)
    (hword : embeddedWord short n (s.drop idx) = some word) :
    inet6_loop order (cstr s) (n + 1) (done ++ List.replicate (n + 1) 0) (shortenerPos short) idx =
      some (some (closed short (done ++ halves word) (n - 1), s.length)) := by
  have hplace := (embeddedWord_eq_some hword).1
  obtain ⟨k, rfl⟩ : ∃ k, n = k + 1 := ⟨n - 1, by omega⟩
  have hi : 8 - (k + 1 + 1) = done.length := by omega
  have hleft : 8 - (done.length + 2) = k := by omega
  have hsecond : store (done ++ [word >>> 16 &&& 0xffff] ++ List.replicate (k + 1) 0)
      (done.length + 1) (word &&& 0xffff) = some (done ++ halves word ++ List.replicate k 0) := by
    have hat := store_next (done ++ [word >>> 16 &&& 0xffff]) k (word &&& 0xffff)
    rw [List.length_append, List.length_singleton] at hat
    rw [hat]
    simp [halves]
  rw [inet6_loop, if_neg (by simp; omega)]
  simp only [hi, embedded_at_loop order (Nat.le_of_lt hidx) hn, hword, store_next, hsecond, hleft,
    Option.bind_eq_bind, Option.bind_some, ne_eq, shortenerPos_eq_iff, length_cstr,
    Nat.add_sub_cancel]
  cases short with
  | none =>
    obtain rfl : k = 0 := by
      rcases hplace with h | ⟨_, h⟩
      · omega
      · exact absurd rfl h
    simp [closed]
  | some p =>
    have hp : p < (done ++ halves word).length := by
      have hlt := hshort p rfl
      rw [List.length_append]
      omega
    rw [if_pos (by simp), shortenerPos, Int.toNat_natCast, rshift_array.spec hp]
    rfl

theorem inet6_loop_none (hidx : idx < s.length) (hn : done.length + (n + 1) = 8)
    (hword : embeddedWord short n (s.drop idx) = none) :
    inet6_loop order (cstr s) (n + 1) (done ++ List.replicate (n + 1) 0) (shortenerPos short) idx =
      (do
        if (behindShortener (s.drop idx)).isSome then
          if ¬ short = none then return none
          else if (s.drop idx)[2]? = some ':' then return none
          else inet6_loop order (cstr s) n (done ++ [0] ++ List.replicate n 0) done.length (idx + 2)
        else if Group (field ':' (s.drop idx)) then
          inet6_loop order (cstr s) n
            (done ++ [value 16 (field ':' (s.drop idx))] ++ List.replicate n 0)
            (shortenerPos short) (← next_idx (cstr s) idx)
        else return none) := by
  have hi : 8 - (n + 1) = done.length := by omega
  have hle := Nat.le_of_lt hidx
  rw [inet6_loop, if_neg (by simp; omega)]
  simp only [hi, embedded_at_loop order hle hn, hword, shortener_at.spec hle, colon_at.spec hle,
    parse_inet6_hexlet.spec s hle, Option.bind_eq_bind, Option.bind_some, ne_eq,
    shortenerPos_eq_iff]
  by_cases hshort : (behindShortener (s.drop idx)).isSome
  · rw [if_pos hshort, if_pos hshort]
    simp [List.replicate_succ]
  · rw [if_neg hshort, if_neg hshort]
    by_cases hgroup : Group (field ':' (s.drop idx))
    · have hlt := hgroup.value_lt
      rw [if_pos hgroup, if_pos hgroup, if_neg (by omega), Int.toNat_natCast,
        Nat.mod_eq_of_lt (by omega), store_next]
      rfl
    · rw [if_neg hgroup, if_neg hgroup, if_pos rfl]

end Loop

/-- With `n` places to go, the loop makes the array of the scan. -/
def Scans (order : ByteOrder) (s : List Char) (n : Nat) : Prop :=
  ∀ (done : List Nat) (short : Option Nat) (idx : Nat), done.length + n = 8 →
    (∀ p, short = some p → p < done.length) → idx ≤ s.length →
    ∃ o, inet6_loop order (cstr s) n (done ++ List.replicate n 0) (shortenerPos short) idx =
        some o ∧
      atEnd s o = scan short done n (s.drop idx)

section Scans

variable {order : ByteOrder} {s : List Char} {n idx : Nat} {done : List Nat} {short : Option Nat}

theorem scans_zero : Scans order s 0 := by
  intro done short idx _ _ hidx
  refine ⟨_, rfl, ?_⟩
  simp only [List.replicate_zero, List.append_nil, atEnd, Option.bind_some, scan,
    List.drop_eq_nil_iff]
  by_cases hend : idx = s.length
  · rw [if_pos hend, if_pos (by omega)]
  · rw [if_neg hend, if_neg (by omega)]

/-- A pass that finds a `::`. -/
theorem Scans.shortener (h : Scans order s n) (hidx : idx < s.length)
    (hn : done.length + (n + 1) = 8) (hword : embeddedWord short n (s.drop idx) = none)
    {v : List Char} (hcolons : behindShortener (s.drop idx) = some v) :
    ∃ o, inet6_loop order (cstr s) (n + 1) (done ++ List.replicate (n + 1) 0)
        (shortenerPos short) idx = some o ∧
      atEnd s o = scan short done (n + 1) (s.drop idx) := by
  rw [inet6_loop_none order hidx hn hword, hcolons]
  have hv := behindShortener_eq_some_iff.mp hcolons
  have hbehind : s.drop (idx + 2) = v := by
    rw [← List.drop_drop, hv]
    rfl
  have hle : idx + 2 ≤ s.length := by
    have hlen := congrArg List.length hv
    simp only [List.length_drop, List.length_cons] at hlen
    omega
  rw [hv] at hword ⊢
  rw [scan_shortener hword, if_pos Option.isSome_some]
  cases short with
  | some p => exact ⟨none, rfl, rfl⟩
  | none =>
    rw [if_neg (by simp)]
    by_cases hthird : v.head? = some ':'
    · rw [if_pos (by simpa [List.head?_eq_getElem?] using hthird), if_pos (Or.inr hthird)]
      exact ⟨none, rfl, rfl⟩
    · have hrest := h (done ++ [0]) (some done.length) (idx + 2) (by simp; omega) (by simp) hle
      rw [if_neg (by simpa [List.head?_eq_getElem?] using hthird), if_neg (by simpa using hthird),
        ← hbehind]
      exact hrest

/-- A pass that looks for a group. -/
theorem Scans.group (h : Scans order s n) (hidx : idx < s.length)
    (hn : done.length + (n + 1) = 8) (hshort : ∀ p, short = some p → p < done.length)
    (hword : embeddedWord short n (s.drop idx) = none)
    (hcolons : behindShortener (s.drop idx) = none) :
    ∃ o, inet6_loop order (cstr s) (n + 1) (done ++ List.replicate (n + 1) 0)
        (shortenerPos short) idx = some o ∧
      atEnd s o = scan short done (n + 1) (s.drop idx) := by
  have hu : s.drop idx ≠ [] := by
    rw [ne_eq, List.drop_eq_nil_iff]
    omega
  rw [inet6_loop_none order hidx hn hword, hcolons, scan_group hu hword hcolons, if_neg (by simp)]
  by_cases hgroup : Group (field ':' (s.drop idx))
  · obtain ⟨j, hj, hjle, hdrop⟩ := next_idx.spec (Nat.le_of_lt hidx)
    rw [if_pos hgroup, if_pos hgroup, hj, ← hdrop]
    apply h _ short j
    · simp
      omega
    · intro p hp
      have hlt := hshort p hp
      simp
      omega
    · exact hjle
  · rw [if_neg hgroup, if_neg hgroup]
    exact ⟨none, rfl, rfl⟩

theorem Scans.succ (h : Scans order s n) : Scans order s (n + 1) := by
  intro done short idx hn hshort hidx
  rcases Nat.eq_or_lt_of_le hidx with rfl | hlt
  · refine ⟨_, inet6_loop_end order hn hshort, ?_⟩
    rw [List.drop_length, scan_end]
    cases short <;> simp [atEnd]
  · have hu : s.drop idx ≠ [] := by
      rw [ne_eq, List.drop_eq_nil_iff]
      omega
    cases hword : embeddedWord short n (s.drop idx) with
    | some word =>
      refine ⟨_, inet6_loop_word order hlt hn hshort hword, ?_⟩
      rw [scan_word hu hword]
      simp [atEnd]
    | none =>
      cases hcolons : behindShortener (s.drop idx) with
      | some v => exact h.shortener hlt hn hword hcolons
      | none => exact h.group hlt hn hshort hword hcolons

end Scans

theorem inet6_loop.spec (order : ByteOrder) (s : List Char) (n : Nat) : Scans order s n := by
  induction n with
  | zero => exact scans_zero
  | succ n ih => exact ih.succ

/-! ## The whole function -/

theorem embeddedWord_first (u : List Char) : embeddedWord none 7 u = none := if_neg (by simp)

/-- A text that begins with a single separator, or that has less than two characters. -/
theorem scan_of_entry {s : List Char}
    (h : s.length < 2 ∨ s[0]? = some ':' ∧ s[1]? ≠ some ':') : scan none [] 8 s = none := by
  cases s with
  | nil => exact scan_end
  | cons c t =>
    have hcolons : behindShortener (c :: t) = none := by
      apply behindShortener_eq_none
      rintro ⟨_, h1⟩
      rcases h with hlen | ⟨_, hne⟩
      · rw [List.getElem?_eq_none (by omega)] at h1
        cases h1
      · exact hne h1
    rw [scan_group (List.cons_ne_nil _ _) (embeddedWord_first _) hcolons]
    by_cases hc : c = ':'
    · rw [hc, field_cons_self, if_neg (fun hg => hg.numeral.1 rfl)]
    · have ht : t = [] := by
        rcases h with hlen | ⟨h0, _⟩
        · exact List.length_eq_zero_iff.mp (by rw [List.length_cons] at hlen; omega)
        · exact absurd (Option.some.inj h0) hc
      rw [ht, field_cons_of_ne hc, field_nil]
      split_ifs
      · exact scan_end
      · rfl

theorem inet6_aton.spec (order : ByteOrder) (s : List Char) (in6 : List Nat) :
    inet6_aton order (cstr s) in6 =
      some (match scan none [] 8 s with
        | none => (-1, in6)
        | some comps => (0, inet6_array_to_saddr comps)) := by
  unfold inet6_aton
  rw [length_cstr]
  by_cases hlen : s.length < 2
  · rw [if_pos (by omega), scan_of_entry (Or.inl hlen)]
    rfl
  · have hlast : (cstr s)[s.length]? = some NUL := by simp [cstr]
    have hbefore : (cstr s)[s.length + 1 - 2]? = some s[s.length - 1] := by
      rw [getElem?_cstr (by omega), List.getElem?_eq_getElem (by omega)]
      rfl
    rw [if_neg (by omega), getElem?_cstr (by omega), getElem?_cstr (by omega),
      List.getElem?_eq_getElem (i := 0) (by omega), List.getElem?_eq_getElem (i := 1) (by omega),
      Nat.add_sub_cancel, hlast, hbefore]
    simp only [Option.bind_eq_bind, Option.bind_some]
    by_cases hentry : s[0] = ':' ∧ s[1] ≠ ':'
    · rw [if_pos hentry, scan_of_entry (Or.inr (by
        rw [List.getElem?_eq_getElem (by omega), List.getElem?_eq_getElem (by omega)]
        exact ⟨congrArg some hentry.1, fun h => hentry.2 (Option.some.inj h)⟩))]
      rfl
    · obtain ⟨o, ho, hend⟩ := inet6_loop.spec order s 8 [] none 0 rfl (by simp) (by omega)
      rw [List.drop_zero] at hend
      rw [List.nil_append, shortenerPos] at ho
      rw [if_neg hentry, if_neg (fun h => absurd h.1 (by decide)), ho, ← hend]
      cases o with
      | none => rfl
      | some r =>
        obtain ⟨comps, idx⟩ := r
        by_cases hidx : idx = s.length
        · simp [atEnd, hidx]
        · simp [atEnd, hidx]

end rmrf.net.details
