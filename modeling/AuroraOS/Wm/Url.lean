import AuroraOS.Lib.Ascii
import AuroraOS.Lib.CString

/-!
# URLs in the browser

`browser_parse_url` and `browser_resolve_url` of `kernel/wm.c`, with the buffers they write. An
access outside a buffer fails.

## Main definitions

- `ParsedUrl`, `browserParseUrl`, `browserResolveUrl`
- `ParsedUrl.WellFormed` — the host and the path are strings, and the path starts with a slash

## Main results

- `browserParseUrl_total`
- `browserResolveUrl_inBounds_iff`
-/

namespace AuroraOS.Wm

open Lib

section Model

/-- `BROWSER_URL_MAX`. -/
def browserUrlMax : ℕ := 192

/-- `BROWSER_HOST_MAX`. -/
def browserHostMax : ℕ := 128

/-- `BROWSER_PATH_MAX`. -/
def browserPathMax : ℕ := 192

/-- `HTML_STYLESHEET_URL_MAX`, the size of the buffers of `html_find_stylesheet_links`. -/
def htmlStylesheetUrlMax : ℕ := 256

/-- `struct parsed_url`. -/
structure ParsedUrl where
  https : Bool
  host : Buffer browserHostMax
  port : UInt16
  path : Buffer browserPathMax

/-- A string literal. -/
def literal (s : String) : Buffer ((chars s).length + 1) :=
  ⟨chars s ++ [0], by rw [List.length_append, List.length_singleton]⟩

variable {m : ℕ}

/-- `strncmp(s, lit, strlen(lit)) == 0`. -/
def startsWith (url : Buffer m) (lit : String) : Bool := (chars lit).isPrefixOf url.str

/-- The loop over the digits of the port. -/
def portDigits (url : Buffer m) : ℕ → ℕ → UInt32 → Option (ℕ × UInt32)
  | 0, _, _ => none
  | fuel + 1, p, portVal => do
    let c ← url.get p
    if ascii '0' ≤ c ∧ c ≤ ascii '9' then
      portDigits url fuel (p + 1) (portVal * 10 + (c - ascii '0').toUInt32)
    else some (p, portVal)

/-- The port of `browser_parse_url`, if there is one. The first result is false for a port that is
    refused. -/
def parsePort (url : Buffer m) (p : ℕ) (out : ParsedUrl) : Option (Bool × ℕ × ParsedUrl) := do
  let c ← url.get p
  if c = ascii ':' then do
    let (p, portVal) ← portDigits url (m + 1) (p + 1) 0
    if portVal = 0 ∨ portVal > 65535 then some (false, p, out)
    else some (true, p, { out with port := portVal.toUInt16 })
  else some (true, p, out)

/-- The path of `browser_parse_url`, if there is one. -/
def parsePath (url : Buffer m) (p : ℕ) (out : ParsedUrl) : Option ParsedUrl := do
  let c ← url.get p
  if c = ascii '/' then do
    let (_, pathLen, path) ← url.copyWhile (fun _ => true) (browserPathMax - 1) (m + 1) p 0 out.path
    let path ← path.set pathLen 0
    some { out with path }
  else some out

/-- `browser_parse_url` behind the scheme. -/
def parseAuthority (url : Buffer m) (p : ℕ) (out : ParsedUrl) : Option (Bool × ParsedUrl) := do
  let c ← url.get p
  if c = 0 then some (false, out)
  else do
    let (p, hostLen, host) ← url.copyWhile (fun c => c ≠ ascii '/' ∧ c ≠ ascii ':')
      (browserHostMax - 1) (m + 1) p 0 out.host
    let host ← host.set hostLen 0
    let out := { out with host }
    if hostLen = 0 then some (false, out)
    else do
      let (accepted, p, out) ← parsePort url p out
      if !accepted then some (false, out)
      else do
        let out ← parsePath url p out
        some (true, out)

/-- `browser_parse_url`: whether the URL is accepted, and `out`. -/
def browserParseUrl (url : Buffer m) (out : ParsedUrl) : Option (Bool × ParsedUrl) := do
  let path ← out.path.strcpy (literal "/") 0
  if startsWith url "https://" then
    parseAuthority url 8 { out with https := true, port := 443, path }
  else if startsWith url "http://" then
    parseAuthority url 7 { out with https := false, port := 80, path }
  else parseAuthority url 0 { out with https := false, port := 80, path }

/-- The index of the last slash, where the loop has come to `p`. -/
def lastSlash (path : Buffer m) : ℕ → ℕ → ℕ → Option ℕ
  | 0, _, _ => none
  | fuel + 1, p, last => do
    let c ← path.get p
    if c = 0 then some last
    else lastSlash path fuel (p + 1) (if c = ascii '/' then p else last)

/-- The scheme of the page in the local array. -/
def copyScheme (base : ParsedUrl) (buf : Buffer browserUrlMax) : Option (Buffer browserUrlMax) :=
  if base.https then buf.strcpy (literal "https:") 0 else buf.strcpy (literal "http:") 0

/-- The protocol-relative references of `browser_resolve_url`. -/
def resolveProtocolRelative (base : ParsedUrl) (href : Buffer m) (buf : Buffer browserUrlMax)
    (out : ParsedUrl) : Option (Bool × ParsedUrl) := do
  let buf ← copyScheme base buf
  let buf ← buf.strcat href
  browserParseUrl buf out

/-- The absolute paths. -/
def resolveAbsolutePath (href : Buffer m) (out : ParsedUrl) : Option (Bool × ParsedUrl) := do
  let (_, len, path) ← href.copyWhile (fun _ => true) (browserPathMax - 1) (m + 1) 0 0 out.path
  let path ← path.set len 0
  some (true, { out with path })

/-- The references to the directory of the page. -/
def resolveRelative (base : ParsedUrl) (href : Buffer m) (out : ParsedUrl) :
    Option (Bool × ParsedUrl) := do
  let last ← lastSlash base.path (browserPathMax + 1) 0 0
  let dirLen := min (last + 1) (browserPathMax - 1)
  let dir ← base.path.load 0 dirLen
  let path ← out.path.store 0 dir
  let hrefLen ← href.strlen
  let hrefLen :=
    if dirLen + hrefLen > browserPathMax - 1 then browserPathMax - 1 - dirLen else hrefLen
  let name ← href.load 0 hrefLen
  let path ← path.store dirLen name
  let path ← path.set (dirLen + hrefLen) 0
  some (true, { out with path })

/-- `browser_resolve_url`: whether the reference is resolved, and `out`. `buf` is what the local
    array holds at first. -/
def browserResolveUrl (base : ParsedUrl) (href : Buffer m) (buf : Buffer browserUrlMax)
    (out : ParsedUrl) : Option (Bool × ParsedUrl) :=
  if startsWith href "http://" || startsWith href "https://" then browserParseUrl href out
  else
    let out := { out with https := base.https, port := base.port }
    if startsWith href "//" then resolveProtocolRelative base href buf out
    else do
      let host ← out.host.strcpy base.host 0
      let out := { out with host }
      if startsWith href "/" then resolveAbsolutePath href out else resolveRelative base href out

end Model

/-- The host and the path are strings, and the path starts with a slash. -/
structure ParsedUrl.WellFormed (u : ParsedUrl) : Prop where
  host : ∃ s, u.host.Holds s
  path : ∃ s, u.path.Holds (ascii '/' :: s)

section Parsing

variable {m : ℕ} {url : Buffer m} {s t : List UInt8} {lit : String} {out : ParsedUrl} {p : ℕ}

theorem holds_literal (h : 0 ∉ chars lit) : (literal lit).Holds (chars lit) :=
  ⟨h, [], List.append_nil _⟩

theorem startsWith_iff (h : url.Holds s) : startsWith url lit = true ↔ chars lit <+: s := by
  rw [startsWith, h.str_eq, List.isPrefixOf_iff_prefix]

theorem exists_get (h : url.Holds s) (hp : p ≤ s.length) : ∃ c, url.get p = some c := by
  obtain hlt | rfl := Nat.lt_or_eq_of_le hp
  · exact ⟨s[p], by rw [h.get_eq hlt, List.getElem?_eq_getElem hlt]⟩
  · exact ⟨0, h.get_length⟩

/-- A character other than the terminator is one of the string. -/
theorem lt_length_of_get (h : url.Holds s) (hp : p ≤ s.length) {c : UInt8}
    (hget : url.get p = some c)
    (hc : c ≠ 0) : p < s.length := by
  obtain hlt | rfl := Nat.lt_or_eq_of_le hp
  · exact hlt
  · rw [h.get_length] at hget
    exact absurd (Option.some.inj hget).symm hc

theorem portDigits_total (h : url.Holds s) (hp : p ≤ s.length) {fuel : ℕ}
    (hfuel : s.length - p < fuel) (portVal : UInt32) :
    ∃ p' portVal', portDigits url fuel p portVal = some (p', portVal') ∧ p' ≤ s.length := by
  induction fuel generalizing p portVal with
  | zero => exact absurd hfuel (Nat.not_lt_zero _)
  | succ fuel ih =>
    obtain ⟨c, hget⟩ := exists_get h hp
    rw [portDigits, hget, Option.bind_eq_bind, Option.bind_some]
    split_ifs with hdigit
    · have hc : c ≠ 0 := fun hzero => absurd (hzero ▸ hdigit.1) (by decide)
      have hlt := lt_length_of_get h hp hget hc
      exact ih hlt (by omega) _
    · exact ⟨p, portVal, rfl, hp⟩

theorem parsePort_total (h : url.Holds s) (hp : p ≤ s.length) (out : ParsedUrl) :
    ∃ accepted p' out', parsePort url p out = some (accepted, p', out') ∧ p' ≤ s.length ∧
      out'.host = out.host ∧ out'.path = out.path := by
  obtain ⟨c, hget⟩ := exists_get h hp
  rw [parsePort, hget, Option.bind_eq_bind, Option.bind_some]
  split_ifs with hcolon
  · have hc : c ≠ 0 := fun hzero => absurd (hcolon.symm.trans hzero) (by decide)
    have hlt := lt_length_of_get h hp hget hc
    have hm := h.length_lt
    obtain ⟨p', portVal, hport, hp'⟩ :=
      portDigits_total h hlt (show s.length - (p + 1) < m + 1 by omega) 0
    rw [hport, Option.bind_eq_bind, Option.bind_some]
    dsimp only
    split_ifs
    · exact ⟨false, p', out, rfl, hp', rfl, rfl⟩
    · exact ⟨true, p', _, rfl, hp', rfl, rfl⟩
  · exact ⟨true, p, out, rfl, hp, rfl, rfl⟩

/-- A part of a string that is copied and terminated. -/
theorem exists_copy (h : url.Holds s) (hp : p ≤ s.length) (ok : UInt8 → Bool) {max n : ℕ}
    (hmax : max < n) (dst : Buffer n) :
    ∃ u dst₁ dst', url.copyWhile ok max (m + 1) p 0 dst = some (p + u.length, u.length, dst₁) ∧
      dst₁.set u.length 0 = some dst' ∧ dst'.Holds u ∧ p + u.length ≤ s.length ∧
      u = ((s.drop p).takeWhile ok).take max := by
  have hm := h.length_lt
  have htake : (s.take p).length = p := List.length_take_of_le hp
  have hdrop : (s.drop p).length = s.length - p := List.length_drop
  have hsplit : url.Holds (s.take p ++ s.drop p) := by rwa [List.take_append_drop]
  obtain ⟨u, rest, dst₁, hu, heq, hrun, hstart⟩ :=
    hsplit.copyWhile ok (show max < n from hmax) (show (s.drop p).length < m + 1 by omega)
      dst.startsWith_nil
  rw [List.length_nil, Nat.sub_zero] at heq
  rw [htake, List.length_nil, Nat.zero_add] at hrun
  rw [List.nil_append] at hstart
  have hlen := congrArg List.length hu
  rw [List.length_append] at hlen
  have hule : u.length ≤ max := by
    rw [heq, List.length_take]
    exact Nat.min_le_left _ _
  have hnonzero : 0 ∉ u := fun hzero =>
    h.nonzero (List.mem_of_mem_drop (hu ▸ List.mem_append_left rest hzero))
  obtain ⟨dst', hset, hholds⟩ := hstart.terminate (hule.trans_lt hmax) hnonzero
  exact ⟨u, dst₁, dst', hrun, hset, hholds, by omega, heq⟩

/-- A path starts with a slash, also the one that is there already. -/
theorem parsePath_total (h : url.Holds s) (hp : p ≤ s.length)
    (hpath : ∃ t, out.path.Holds (ascii '/' :: t)) :
    ∃ out', parsePath url p out = some out' ∧ out'.host = out.host ∧
      ∃ t, out'.path.Holds (ascii '/' :: t) := by
  obtain ⟨c, hget⟩ := exists_get h hp
  rw [parsePath, hget, Option.bind_eq_bind, Option.bind_some]
  split_ifs with hslash
  · have hc : c ≠ 0 := fun hzero => absurd (hslash.symm.trans hzero) (by decide)
    have hlt := lt_length_of_get h hp hget hc
    obtain ⟨u, path₁, path, hrun, hset, hholds, -, hu⟩ := exists_copy h hp (fun _ => true)
      (show browserPathMax - 1 < browserPathMax by decide) out.path
    rw [hrun, Option.bind_eq_bind, Option.bind_some]
    dsimp only
    rw [hset, Option.bind_eq_bind, Option.bind_some]
    refine ⟨_, rfl, rfl, u.tail, ?_⟩
    -- the first character that is copied is the slash
    have hhead : s.drop p = ascii '/' :: s.drop (p + 1) := by
      rw [h.get_eq hlt, List.getElem?_eq_getElem hlt] at hget
      rw [← hslash, ← Option.some.inj hget, ← List.drop_eq_getElem_cons hlt]
    have hcons : u = ascii '/' :: u.tail := by
      rw [hu, hhead, List.takeWhile_cons, if_pos rfl]
      rfl
    rw [← hcons]
    exact hholds
  · exact ⟨out, rfl, rfl, hpath⟩

theorem parseAuthority_total (h : url.Holds s) (hp : p ≤ s.length)
    (hpath : ∃ t, out.path.Holds (ascii '/' :: t)) :
    ∃ accepted out', parseAuthority url p out = some (accepted, out') ∧
      (accepted = true → out'.WellFormed) := by
  obtain ⟨c, hget⟩ := exists_get h hp
  rw [parseAuthority, hget, Option.bind_eq_bind, Option.bind_some]
  split_ifs with hend
  · exact ⟨false, out, rfl, Bool.noConfusion⟩
  · obtain ⟨u, host₁, host, hrun, hset, hholds, hp', -⟩ := exists_copy h hp
      (fun c => c ≠ ascii '/' ∧ c ≠ ascii ':')
      (show browserHostMax - 1 < browserHostMax by decide) out.host
    rw [hrun, Option.bind_eq_bind, Option.bind_some]
    dsimp only
    rw [hset, Option.bind_eq_bind, Option.bind_some]
    split_ifs with hempty
    · exact ⟨false, _, rfl, Bool.noConfusion⟩
    · obtain ⟨accepted, p', out₁, hport, hp'', hhost, hpath₁⟩ :=
        parsePort_total h hp' { out with host }
      rw [hport, Option.bind_eq_bind, Option.bind_some]
      cases accepted with
      | false => exact ⟨false, out₁, rfl, Bool.noConfusion⟩
      | true =>
        obtain ⟨out', hparse, hhost', hpath'⟩ := parsePath_total h hp'' (hpath₁ ▸ hpath)
        refine ⟨true, out', ?_, fun _ => ⟨⟨u, ?_⟩, hpath'⟩⟩
        · dsimp only
          rw [if_neg (by decide), hparse]
          rfl
        · rw [hhost', hhost]
          exact hholds

/-- Every string is parsed within the buffers, and a URL that is accepted is well-formed. -/
theorem browserParseUrl_total (h : url.Holds s) (out : ParsedUrl) :
    ∃ accepted out', browserParseUrl url out = some (accepted, out') ∧
      (accepted = true → out'.WellFormed) := by
  have hslash : (literal "/").Holds [ascii '/'] := holds_literal (by decide)
  obtain ⟨path, hcopy, hholds⟩ := hslash.strcpy (Nat.zero_le _)
    (show 1 - 0 < browserPathMax by decide) out.path
  rw [browserParseUrl, hcopy, Option.bind_eq_bind, Option.bind_some]
  split_ifs with hhttps hhttp
  · have hle := ((startsWith_iff h).mp hhttps).length_le
    exact parseAuthority_total h hle ⟨[], hholds⟩
  · have hle := ((startsWith_iff h).mp hhttp).length_le
    exact parseAuthority_total h hle ⟨[], hholds⟩
  · exact parseAuthority_total h (Nat.zero_le _) ⟨[], hholds⟩

end Parsing

section Resolving

variable {m : ℕ} {href path : Buffer m} {s t : List UInt8} {base out : ParsedUrl}
  {buf : Buffer browserUrlMax}

theorem strcat_eq_none {n : ℕ} {dst : Buffer n} (h : dst.Holds s) (h' : href.Holds t)
    (hlong : n ≤ s.length + t.length) : dst.strcat href = none := by
  rw [Buffer.strcat, h.strlen_eq, Option.bind_eq_bind, Option.bind_some, if_pos h'.zero_mem,
    h'.str_eq, Buffer.store, dif_neg]
  rw [List.length_append, List.length_singleton]
  omega

/-- The scheme of the page, with its colon. -/
def schemeText (base : ParsedUrl) : List UInt8 :=
  if base.https then chars "https:" else chars "http:"

/-- A protocol-relative reference is put together in the local array. -/
theorem resolveProtocolRelative_inBounds_iff (h : href.Holds t) :
    (∃ resolved out', resolveProtocolRelative base href buf out = some (resolved, out') ∧
        (resolved = true → out'.WellFormed)) ↔
      (schemeText base).length + t.length < browserUrlMax := by
  have hscheme : ∃ buf₁, copyScheme base buf = some buf₁ ∧ buf₁.Holds (schemeText base) := by
    rw [schemeText, copyScheme]
    split_ifs
    · exact (holds_literal (by decide)).strcpy (Nat.zero_le _) (by decide) buf
    · exact (holds_literal (by decide)).strcpy (Nat.zero_le _) (by decide) buf
  obtain ⟨buf₁, hcopy, hholds⟩ := hscheme
  rw [resolveProtocolRelative, hcopy, Option.bind_eq_bind, Option.bind_some]
  by_cases hfit : (schemeText base).length + t.length < browserUrlMax
  · obtain ⟨buf₂, hcat, hholds₂⟩ := hholds.strcat h hfit
    rw [hcat, Option.bind_some]
    exact iff_of_true (browserParseUrl_total hholds₂ out) hfit
  · rw [strcat_eq_none hholds h (Nat.not_lt.mp hfit), Option.bind_none]
    refine iff_of_false ?_ hfit
    rintro ⟨resolved, out', hnone, -⟩
    exact Option.some_ne_none _ hnone.symm

theorem resolveAbsolutePath_inBounds (out : ParsedUrl) (h : href.Holds (ascii '/' :: t))
    (hhost : ∃ s, out.host.Holds s) :
    ∃ out', resolveAbsolutePath href out = some (true, out') ∧ out'.WellFormed := by
  obtain ⟨u, path₁, path, hrun, hset, hholds, -, hu⟩ :=
    exists_copy h (Nat.zero_le _) (fun _ => true)
    (show browserPathMax - 1 < browserPathMax by decide) out.path
  have hcons : u = ascii '/' :: u.tail := by
    rw [hu, List.drop_zero, List.takeWhile_cons, if_pos rfl]
    rfl
  rw [Nat.zero_add] at hrun
  refine ⟨{ out with path }, ?_, hhost, u.tail, ?_⟩
  · rw [resolveAbsolutePath, hrun, Option.bind_eq_bind, Option.bind_some]
    dsimp only
    rw [hset]
    rfl
  · rw [← hcons]
    exact hholds

/-- The last slash is one of the string. -/
theorem lastSlash_lt (h : path.Holds s) {p last fuel : ℕ} (hp : p ≤ s.length)
    (hfuel : s.length - p < fuel) (hlast : last < s.length) :
    ∃ last', lastSlash path fuel p last = some last' ∧ last' < s.length := by
  induction fuel generalizing p last with
  | zero => exact absurd hfuel (Nat.not_lt_zero _)
  | succ fuel ih =>
    obtain ⟨c, hget⟩ := exists_get h hp
    rw [lastSlash, hget, Option.bind_eq_bind, Option.bind_some]
    split_ifs with hend hslash
    · exact ⟨last, rfl, hlast⟩
    · have hlt := lt_length_of_get h hp hget hend
      exact ih hlt (by omega) hlt
    · have hlt := lt_length_of_get h hp hget hend
      exact ih hlt (by omega) hlast

/-- The directory and the reference, as far as there is room. -/
theorem resolveRelative_inBounds (out : ParsedUrl) (h : href.Holds t)
    (hbase : base.path.Holds (ascii '/' :: s))
    (hhost : ∃ s, out.host.Holds s) :
    ∃ out', resolveRelative base href out = some (true, out') ∧ out'.WellFormed := by
  have hmax : browserPathMax = 192 := rfl
  have hlen := hbase.length_lt
  obtain ⟨last, hlast, hlt⟩ := lastSlash_lt hbase (Nat.zero_le _)
    (show (ascii '/' :: s).length - 0 < browserPathMax + 1 by omega)
    (show 0 < (ascii '/' :: s).length from Nat.succ_pos _)
  -- the directory
  generalize hdirLen : min (last + 1) (browserPathMax - 1) = dirLen
  generalize hdir : (ascii '/' :: s).take dirLen = dir
  have hdirLength : dir.length = dirLen := by
    rw [← hdir, List.length_take]
    omega
  have hload : base.path.load 0 dirLen = some dir := hdir ▸ hbase.load_take (by omega)
  obtain ⟨path₁, hstore₁, hstart₁⟩ := out.path.startsWith_nil.store rfl
    (show 0 + dir.length ≤ browserPathMax by omega)
  rw [List.nil_append] at hstart₁
  rw [List.length_nil] at hstore₁
  -- the reference
  generalize hhrefLen : (if dirLen + t.length > browserPathMax - 1 then browserPathMax - 1 - dirLen
    else t.length) = hrefLen
  have hfit : hrefLen ≤ t.length ∧ dirLen + hrefLen < browserPathMax := by
    rw [← hhrefLen]
    split_ifs <;> omega
  have hname : (t.take hrefLen).length = hrefLen := List.length_take_of_le hfit.1
  obtain ⟨path₂, hstore₂, hstart₂⟩ := hstart₁.store hdirLength.symm
    (show dirLen + (t.take hrefLen).length ≤ browserPathMax by omega)
  have hnonzero : 0 ∉ dir ++ t.take hrefLen := by
    rw [List.mem_append, not_or]
    exact ⟨fun hzero => hbase.nonzero (List.mem_of_mem_take (hdir ▸ hzero)),
      fun hzero => h.nonzero (List.mem_of_mem_take hzero)⟩
  have htotal : (dir ++ t.take hrefLen).length = dirLen + hrefLen := by
    rw [List.length_append, hdirLength, hname]
  obtain ⟨path, hset, hholds⟩ := hstart₂.terminate
    (show (dir ++ t.take hrefLen).length < browserPathMax by omega) hnonzero
  rw [htotal] at hset
  refine ⟨{ out with path }, ?_, hhost, (dir ++ t.take hrefLen).tail, ?_⟩
  · rw [resolveRelative, hlast, Option.bind_eq_bind, Option.bind_some]
    dsimp only
    rw [hdirLen, hload, Option.bind_eq_bind, Option.bind_some, hstore₁, Option.bind_eq_bind,
      Option.bind_some, h.strlen_eq, Option.bind_some, hhrefLen, h.load_take hfit.1,
      Option.bind_some, hstore₂, Option.bind_some, hset]
    rfl
  · have hcons : dir = ascii '/' :: dir.tail := by
      obtain ⟨k, hk⟩ : ∃ k, dirLen = k + 1 := ⟨dirLen - 1, by omega⟩
      rw [← hdir, hk]
      rfl
    rw [hcons] at hholds ⊢
    exact hholds

end Resolving

/-- Against a page whose URL was accepted, a reference is resolved within the buffers, with a
    well-formed result, if and only if it is not protocol-relative or fits into the local array
    behind the scheme. -/
theorem browserResolveUrl_inBounds_iff {m : ℕ} {url : Buffer m} {out₀ base : ParsedUrl}
    {href : Buffer htmlStylesheetUrlMax} {t : List UInt8} (hurl : ∃ s, url.Holds s)
    (hbase : browserParseUrl url out₀ = some (true, base)) (h : href.Holds t)
    (buf : Buffer browserUrlMax) (out : ParsedUrl) :
    (∃ resolved out', browserResolveUrl base href buf out = some (resolved, out') ∧
        (resolved = true → out'.WellFormed)) ↔
      (chars "//" <+: t → (schemeText base).length + t.length < browserUrlMax) := by
  obtain ⟨s, hs⟩ := hurl
  have hwell : base.WellFormed := by
    obtain ⟨accepted, out', hparse, hwell⟩ := browserParseUrl_total hs out₀
    rw [hbase] at hparse
    obtain ⟨rfl, rfl⟩ := Prod.mk.inj (Option.some.inj hparse)
    exact hwell rfl
  obtain ⟨baseHost, hhost⟩ := hwell.host
  obtain ⟨basePath, hpath⟩ := hwell.path
  obtain ⟨host, hcopy, hhost'⟩ := hhost.strcpy (Nat.zero_le _) (by exact hhost.length_lt) out.host
  rw [browserResolveUrl]
  dsimp only
  rw [hcopy, Option.bind_eq_bind, Option.bind_some]
  split_ifs with habsolute hrelative hslash
  · refine iff_of_true (browserParseUrl_total h out) fun hprotocol => ?_
    rw [Bool.or_eq_true, startsWith_iff h, startsWith_iff h] at habsolute
    obtain hhttp | hhttps := habsolute
    · exact absurd (List.prefix_of_prefix_length_le hprotocol hhttp (by decide)) (by decide)
    · exact absurd (List.prefix_of_prefix_length_le hprotocol hhttps (by decide)) (by decide)
  · rw [forall_prop_of_true ((startsWith_iff h).mp hrelative)]
    exact resolveProtocolRelative_inBounds_iff h
  · refine iff_of_true ?_ fun hprotocol => absurd ((startsWith_iff h).mpr hprotocol) hrelative
    obtain ⟨path, rfl⟩ := (startsWith_iff h).mp hslash
    obtain ⟨out', hresolve, hout'⟩ := resolveAbsolutePath_inBounds
      { out with https := base.https, host, port := base.port } h ⟨_, hhost'⟩
    exact ⟨true, out', hresolve, fun _ => hout'⟩
  · refine iff_of_true ?_ fun hprotocol => absurd ((startsWith_iff h).mpr hprotocol) hrelative
    obtain ⟨out', hresolve, hout'⟩ := resolveRelative_inBounds
      { out with https := base.https, host, port := base.port } h hpath ⟨_, hhost'⟩
    exact ⟨true, out', hresolve, fun _ => hout'⟩

/-- A cleared result. -/
def blankUrl : ParsedUrl := ⟨false, Buffer.zeros _, 0, Buffer.zeros _⟩

/-- A style sheet of another server, on a page of `a`. -/
theorem browserResolveUrl_inBounds_iff_short :
    ∃ (base : ParsedUrl) (href : Buffer htmlStylesheetUrlMax), href.Holds (chars "//b/c") ∧
      ((∃ resolved out', browserResolveUrl base href (Buffer.zeros _) blankUrl =
          some (resolved, out') ∧ (resolved = true → out'.WellFormed)) ↔
        (chars "//" <+: chars "//b/c" →
          (schemeText base).length + (chars "//b/c").length < browserUrlMax)) := by
  obtain ⟨href, h⟩ : ∃ href : Buffer htmlStylesheetUrlMax, href.Holds (chars "//b/c") :=
    Buffer.exists_holds (by decide) (by decide)
  have hurl : (literal "a").Holds (chars "a") := holds_literal (by decide)
  obtain ⟨base, hbase⟩ : ∃ base, browserParseUrl (literal "a") blankUrl = some (true, base) :=
    ⟨_, rfl⟩
  exact ⟨base, href, h, browserResolveUrl_inBounds_iff ⟨_, hurl⟩ hbase h _ _⟩

/-- A long protocol-relative reference leaves the local array. -/
theorem browserResolveUrl_overflows :
    ¬∀ (m : ℕ) (url : Buffer m) (out₀ base : ParsedUrl) (href : Buffer htmlStylesheetUrlMax)
        (t : List UInt8) (buf : Buffer browserUrlMax) (out : ParsedUrl),
      (∃ s, url.Holds s) → browserParseUrl url out₀ = some (true, base) → href.Holds t →
        ∃ resolved out', browserResolveUrl base href buf out = some (resolved, out') ∧
          (resolved = true → out'.WellFormed) := by
  intro hall
  have hnonzero : 0 ∉ chars "//" ++ List.replicate 198 (ascii 'a') := by
    rw [List.mem_append, List.mem_replicate]
    decide
  have hlen : (chars "//" ++ List.replicate 198 (ascii 'a')).length < htmlStylesheetUrlMax := by
    rw [List.length_append, List.length_replicate]
    decide
  obtain ⟨href, h⟩ := Buffer.exists_holds hnonzero hlen
  have hurl : (literal "a").Holds (chars "a") := holds_literal (by decide)
  obtain ⟨base, hbase⟩ : ∃ base, browserParseUrl (literal "a") blankUrl = some (true, base) :=
    ⟨_, rfl⟩
  have hresolve := hall _ _ _ _ href _ (Buffer.zeros _) blankUrl ⟨_, hurl⟩ hbase h
  rw [browserResolveUrl, if_neg, if_pos ((startsWith_iff h).mpr (List.prefix_append _ _)),
    resolveProtocolRelative_inBounds_iff h] at hresolve
  · rw [List.length_append, List.length_replicate, browserUrlMax] at hresolve
    omega
  · rw [Bool.or_eq_true, startsWith_iff h, startsWith_iff h]
    decide

end AuroraOS.Wm
