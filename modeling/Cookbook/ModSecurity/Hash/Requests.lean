import Cookbook.ModSecurity.Hash.Links

/-!
# Links and the requests for them

A client requests the path and the query of a link.  A relative link is one
from the directory of its page.
-/

namespace Cookbook.ModSecurity.Hash

open Cookbook.Lib.CText
open Cookbook.ModSecurity.Text
open Cookbook.ModSecurity.Text.Path (slash backslash)

structure Host where
  bytes : Bytes
  noSlash : slash ∉ bytes
  noFragment : numberSign ∉ bytes

structure Rest where
  bytes : Bytes
  noFragment : numberSign ∉ bytes

def firstSegment (link : Bytes) : Bytes :=
  link.takeWhile fun byte => byte ≠ slash ∧ byte ≠ questionMark

structure Relative where
  bytes : Bytes
  noFragment : numberSign ∉ bytes
  notRooted : bytes.head? ≠ some slash
  noScheme : colon ∉ firstSegment bytes

inductive Link where
  | http (host : Host) (rest : Rest)
  | https (host : Host) (rest : Rest)
  | rooted (rest : Rest) (notHost : rest.bytes.head? ≠ some slash)
  | relative (link : Relative)

/-- `http://` -/
def httpScheme : Bytes :=
  ascii ['h', 't', 't', 'p', ':', '/', '/']

/-- `https://` -/
def httpsScheme : Bytes :=
  ascii ['h', 't', 't', 'p', 's', ':', '/', '/']

def Link.bytes : Link → Bytes
  | .http host rest => httpScheme ++ host.bytes ++ slash :: rest.bytes
  | .https host rest => httpsScheme ++ host.bytes ++ slash :: rest.bytes
  | .rooted rest _ => slash :: rest.bytes
  | .relative link => link.bytes

structure Request where
  path : UriPath
  query : Option Bytes

def Request.uri (request : Request) : Bytes :=
  match request.query with
  | none => request.path.bytes
  | some query => request.path.bytes ++ questionMark :: query

def ModsecRec.onRequest (msr : ModsecRec) (request : Request) : ModsecRec :=
  { msr with path := some request.path }

def directory : Option UriPath → Bytes
  | none => [slash]
  | some path =>
    match strrchr path.bytes slash with
    | none => [slash]
    | some place => path.bytes.take (place + 1)

def pathAndQuery (page : Option UriPath) (link : Bytes) : Bytes :=
  let link := link.takeWhile fun byte => byte ≠ numberSign
  if httpScheme <+: link then
    (link.drop httpScheme.length).dropWhile fun byte => byte ≠ slash
  else if httpsScheme <+: link then
    (link.drop httpsScheme.length).dropWhile fun byte => byte ≠ slash
  else if link.head? = some slash then
    link
  else
    directory page ++ link

theorem exists_request {uri : Bytes} (rooted : uri.head? = some slash)
    (noFragment : numberSign ∉ uri) : ∃ request : Request, request.uri = uri := by
  -- The path of a real request ends before the query.
  by_cases hasQuery : questionMark ∈ uri
  · obtain ⟨path, query, rfl, -⟩ := List.eq_append_cons_of_mem hasQuery
    rw [List.mem_append, not_or] at noFragment
    have pathRooted : path.head? = some slash := by
      cases path with
      | nil => cases rooted
      | cons first rest => exact rooted
    exact ⟨{ path := ⟨path, pathRooted, noFragment.1⟩, query := some query }, rfl⟩
  · exact ⟨{ path := ⟨uri, rooted, noFragment⟩, query := none }, rfl⟩

theorem Request.rooted (request : Request) : request.uri.head? = some slash := by
  have pathRooted := request.path.rooted
  unfold Request.uri
  cases request.query with
  | none => exact pathRooted
  | some query =>
    obtain ⟨rest, isPath⟩ := List.head?_eq_some_iff.mp pathRooted
    rw [isPath]
    rfl

section

variable {path : Bytes}

theorem length_fileBasename_lt (rooted : path.head? = some slash) :
    (fileBasename path).length < path.length := by
  obtain ⟨rest, rfl⟩ := List.head?_eq_some_iff.mp rooted
  rcases exists_last (slash :: rest) slash with absent | found
  · exact absurd List.mem_cons_self absent
  · obtain ⟨before, after, isPath, absent⟩ := found
    have isLast : strrchr (slash :: rest) slash = some before.length := by
      rw [isPath]
      exact strrchr_last before absent
    have shorter : ((slash :: rest).drop (before.length + 1)).length <
        (slash :: rest).length := by
      rw [List.length_drop, List.length_cons]
      omega
    unfold fileBasename
    rw [isLast]
    dsimp only
    split
    · refine lt_of_le_of_lt ?_ shorter
      rw [List.length_drop]
      exact Nat.sub_le _ _
    · exact shorter

theorem relativePath_rooted (rooted : path.head? = some slash) :
    (relativePath path).head? = some slash := by
  have shorter := length_fileBasename_lt rooted
  obtain ⟨rest, rfl⟩ := List.head?_eq_some_iff.mp rooted
  obtain ⟨count, isCount⟩ := Nat.exists_eq_succ_of_ne_zero (Nat.sub_ne_zero_of_lt shorter)
  rw [relativePath, isCount]
  rfl

theorem directory_rooted (page : Option UriPath) : (directory page).head? = some slash := by
  cases page with
  | none => rfl
  | some path =>
    obtain ⟨rest, isPath⟩ := List.head?_eq_some_iff.mp path.rooted
    rw [directory]
    split
    · rfl
    · rw [isPath]
      rfl

theorem directory_noFragment (page : Option UriPath) : numberSign ∉ directory page := by
  cases page with
  | none => decide
  | some path =>
    rw [directory]
    split
    · decide
    · exact fun member => path.noFragment (List.mem_of_mem_take member)

end

theorem head_append
    {text : Bytes} {byte : UInt8} (begins : text.head? = some byte)
    (rest : Bytes) : (text ++ rest).head? = some byte := by
  rw [List.head?_append, begins]
  rfl

end Cookbook.ModSecurity.Hash
