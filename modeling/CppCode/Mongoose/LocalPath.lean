import CppCode.Mongoose.FormData
import CppCode.Mongoose.MatchPrefix
import CppCode.Mongoose.NormalizePath

/-!
# Local paths

`mg_uri_to_local_path` finds the file that a request names. It chooses a directory, chops the
components off the path of the URI, decodes each in place behind the local path, and follows it,
until it comes to a file.
-/

namespace CppCode.Mongoose

open Library

/-! ## Decoding in place -/

/-- `mg_url_decode` of the bytes at an offset of a block, to the same place, for lengths in the
range of `int`. -/
def urlDecodeAt (isFormUrlEncoded : Bool) (p srcLen dstLen : Nat) (buf : Bytes) (i j : Nat) :
    Int × Bytes :=
  if i < srcLen ∧ j < dstLen - 1 then
    if buf.getD (p + i) 0 = 37 then
      if i + 2 < srcLen ∧ isxdigit (buf.getD (p + i + 1) 0) ∧
          isxdigit (buf.getD (p + i + 2) 0) then
        urlDecodeAt isFormUrlEncoded p srcLen dstLen
          (store buf (p + j) [hextoi (tolower (buf.getD (p + i + 1) 0)) <<< 4 |||
            hextoi (tolower (buf.getD (p + i + 2) 0))]) (i + 3) (j + 1)
      else (-1, buf)
    else if isFormUrlEncoded && buf.getD (p + i) 0 == 43 then
      urlDecodeAt isFormUrlEncoded p srcLen dstLen (store buf (p + j) [32]) (i + 1) (j + 1)
    else
      urlDecodeAt isFormUrlEncoded p srcLen dstLen (store buf (p + j) [buf.getD (p + i) 0]) (i + 1)
        (j + 1)
  else (if srcLen ≤ i then (j : Int) else -1, store buf (p + j) [0])
termination_by srcLen - i

/-! ## The directory -/

/-- An entry of a list: `val`, the byte behind it, and `eq_val` if there is one. -/
structure ListEntry where
  /-- The text in front of the first sign `=`. -/
  val : Bytes
  /-- The byte behind that text. -/
  behind : UInt8
  /-- The text behind the first sign `=`, or `NULL`. -/
  eqVal : Option Bytes
  deriving DecidableEq, Repr

/-- `mg_next_comma_list_entry`: the next entry, and the rest of the list. -/
def mgNextCommaListEntry (list : Bytes) : Option (ListEntry × Bytes) :=
  if list = [] then none
  else
    let val := list.takeWhile (· ≠ 44)
    let rest := list.drop (val.length + 1)
    if 61 ∈ val then
      some (⟨val.takeWhile (· ≠ 61), 61, some (val.drop ((val.takeWhile (· ≠ 61)).length + 1))⟩,
        rest)
    else some (⟨val, list.getD val.length 0, none⟩, rest)

/-- A list gets shorter with each entry. -/
theorem mgNextCommaListEntry_lt {list rest : Bytes} {entry : ListEntry}
    (next : mgNextCommaListEntry list = some (entry, rest)) : rest.length < list.length := by
  unfold mgNextCommaListEntry at next
  by_cases empty : list = []
  · simp [empty] at next
  · rw [if_neg empty] at next
    have positive := List.length_pos_iff.mpr empty
    have shorter : (list.drop ((list.takeWhile (· ≠ 44)).length + 1)).length < list.length := by
      rw [List.length_drop]
      omega
    dsimp only at next
    split_ifs at next
    · cases next
      exact shorter
    · cases next
      exact shorter

/-- The options of `mg_serve_http` that choose a directory: `document_root`, and `url_rewrites`
unless that is `NULL`. -/
structure ServeHttpOpts where
  /-- The directory. -/
  documentRoot : Bytes
  /-- Rules for other directories. -/
  urlRewrites : Option Bytes := none

/-- The loop of `mg_uri_to_local_path` over the rules: `root`, unless that is `NULL`, and
`file_uri_start`, which stays behind a match that is no whole component. It is `none` when the code
compares the byte behind the URI with a rule. -/
def rewriteLoop (host : Option Bytes) (uri : Bytes) (uriEnd : UInt8) (rewrites : Bytes)
    (fileUriStart : Nat) : Option (Option Bytes × Nat) :=
  match next : mgNextCommaListEntry rewrites with
  | none => some (none, fileUriStart)
  | some (a, rest) =>
    have : rest.length < rewrites.length := mgNextCommaListEntry_lt next
    if 1 < a.val.length ∧ a.val.getD 0 0 = 64 then
      if ∃ hh ∈ host, hh.length = a.val.length - 1 ∧
          mgNcasecmp a.val.tail hh (a.val.length - 1) = 0 then some (a.eqVal, fileUriStart)
      else rewriteLoop host uri uriEnd rest fileUriStart
    else
      (mgMatchPrefixN a.behind uriEnd a.val uri).bind fun matchLen =>
        let start := matchLen.getD 0
        if 0 < start then
          if start = uri.length ∨ uri.getD start 0 = 47 then some (a.eqVal, start)
          else if uri.getD (start - 1) 0 = 47 then some (a.eqVal, start - 1)
          else rewriteLoop host uri uriEnd rest start
        else rewriteLoop host uri uriEnd rest fileUriStart
termination_by rewrites.length

/-- The directory and the place in the URI where its part begins. It is `none` when the directory
has no name: the assertion fails, and a build without assertions reads the byte in front of its
block. -/
def chooseRoot (opts : ServeHttpOpts) (host : Option Bytes) (uri : Bytes) (uriEnd : UInt8) :
    Option (Bytes × Nat) :=
  (rewriteLoop host uri uriEnd (opts.urlRewrites.getD []) 0).bind fun chosen =>
    if chosen.1.getD opts.documentRoot = [] then none
    else some (chosen.1.getD opts.documentRoot, chosen.2)

/-! ## The path -/

/-- What the code asks the system. -/
structure FileSystem where
  /-- Whether there is a file of a name, and whether it is a regular one. -/
  stat : Bytes → Option Bool
  /-- Whether `to_wchar` knows a name, on Windows. -/
  wchar : Option (Bytes → Bool) := none

/-- `DIRSEP`. -/
def FileSystem.dirsep (fs : FileSystem) : UInt8 := if fs.wchar.isSome then 92 else 47

/-- The bytes that a component may have. -/
def FileSystem.allows (fs : FileSystem) (byte : UInt8) : Bool :=
  byte ≠ 0 && byte ≠ fs.dirsep && !(fs.wchar.isSome && byte == 47)

/-- The C string at the front of some memory. -/
def pathString (buf : Bytes) : Bytes := buf.takeWhile (· ≠ 0)

/-- The loop that goes back to the previous separator. -/
def backToSep (buf : Bytes) (dirsep : UInt8) (ps : Nat) : Nat → Nat
  | 0 => 0
  | p + 1 =>
    if ps < p + 1 ∧ buf.getD (p + 1) 0 ≠ dirsep then backToSep buf dirsep ps p else p + 1

/-- The loop of `mg_uri_to_local_path` over the components: `ok`, the block, and where `u` is in the
URI. It goes on when `ok` is false. It is `none` when it copies outside of the block. -/
def localPathLoop (fs : FileSystem) (uri : Bytes) (ps : Nat) (lp : Bytes) (p u : Nat)
    (exists_ ok : Bool) : Option (Bool × Bytes × Nat) :=
  if inside : u ≤ uri.length then
    let found := if exists_ then fs.stat (pathString lp) else none
    if found = some true then some (ok, lp, if uri.getD (u - 1) 0 = 47 then u - 1 else u)
    else if more : u < uri.length then
      let component := parseUriComponent uri u uri.length 47
      have later : u < component.2 := lt_parseUriComponent 47 more
      have : uri.length + 1 - component.2 < uri.length + 1 - u := by omega
      if 0 < component.1.len then
        if lp.length < p + 1 + component.1.len then none
        else
          let decoded := urlDecodeAt false (p + 1) component.1.len (lp.length - p - 1)
            (store lp (p + 1) (component.1.slice uri)) 0 0
          let name := (decoded.2.drop (p + 1)).take decoded.1.toNat
          if decoded.1 ≤ 0 then some (false, decoded.2, u)
          else if name = [46] then
            localPathLoop fs uri ps decoded.2 p component.2 found.isSome ok
          else if name = [46, 46] then
            localPathLoop fs uri ps (store decoded.2 (backToSep decoded.2 fs.dirsep ps p) [0])
              (backToSep decoded.2 fs.dirsep ps p) component.2 found.isSome ok
          else if ∃ wchar ∈ fs.wchar, wchar (pathString (decoded.2.drop (p + 1))) = false then
            some (false, decoded.2, u)
          else
            localPathLoop fs uri ps (store decoded.2 p [fs.dirsep])
              (p + 1 + (name.takeWhile fs.allows).length) component.2 found.isSome
              (ok && name.all fs.allows)
      else localPathLoop fs uri ps lp p component.2 found.isSome ok
    else some (ok, lp, u)
  else some (ok, lp, u)
termination_by uri.length + 1 - u

/-- `mg_uri_to_local_path`, with the byte behind the URI and the block that `malloc` returns, unless
that is `NULL`: `none` when the code leaves its memory, `some none` when it returns 0, else the
local path and the remainder of the URI. -/
def mgUriToLocalPath (fs : FileSystem) (opts : ServeHttpOpts) (host : Option Bytes) (uri : Bytes)
    (uriEnd : UInt8) (malloc : Nat → Option Bytes) : Option (Option (Bytes × Bytes)) :=
  (chooseRoot opts host uri uriEnd).bind fun chosen =>
    match malloc (chosen.1.length + uri.length + 1) with
    | none => some none
    | some block =>
      let lp := store block 0 chosen.1
      let ps := if lp.getD (chosen.1.length - 1) 0 = fs.dirsep then chosen.1.length - 1
        else chosen.1.length
      (localPathLoop fs uri ps (store lp ps [0]) ps (chosen.2 + 1) true true).map fun done =>
        if done.1 then some (pathString done.2.1, uri.drop done.2.2) else none

end CppCode.Mongoose
