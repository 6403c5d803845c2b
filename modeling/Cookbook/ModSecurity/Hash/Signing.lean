import Cookbook.ModSecurity.Hash.Parameters

/-!
# Signed links of every form

What is signed of a link, and what is requested for the signed link.
-/

namespace Cookbook.ModSecurity.Hash

open Cookbook.Lib.CText
open Cookbook.ModSecurity.Text
open Cookbook.ModSecurity.Text.Path (slash backslash)

def noFragmentPart (text : Bytes) : Bytes :=
  text.takeWhile fun byte => byte ≠ numberSign

def TakenForHttps (link : Bytes) : Prop :=
  link.length > 8 ∧ ascii ['h', 't', 't', 'p', 's'] <+: link

instance (link : Bytes) : Decidable (TakenForHttps link) :=
  inferInstanceAs (Decidable (_ ∧ _))

section

variable {hmac : Hmac} {msr : ModsecRec} {text : Bytes}

theorem noFragmentPart_append
    {first : Bytes} (noFragment : numberSign ∉ first) (rest : Bytes) :
    noFragmentPart (first ++ rest) = first ++ noFragmentPart rest :=
  List.takeWhile_append_of_pos fun _ member =>
    decide_eq_true fun same => noFragment (same ▸ member)

theorem noFragmentPart_self (noFragment : numberSign ∉ text) : noFragmentPart text = text :=
  List.takeWhile_eq_self_iff.mpr fun _ member =>
    decide_eq_true fun same => noFragment (same ▸ member)

theorem not_mem_noFragmentPart (text : Bytes) : numberSign ∉ noFragmentPart text := by
  intro member
  rw [noFragmentPart] at member
  have differs := List.mem_takeWhile_imp member
  simp at differs

theorem noFragmentPart_rooted (rooted : text.head? = some slash) :
    (noFragmentPart text).head? = some slash := by
  obtain ⟨tail, rfl⟩ := List.head?_eq_some_iff.mp rooted
  rfl

theorem strchr_host (host : Host) (rest : Bytes) :
    strchr (host.bytes ++ slash :: rest) slash = some (slash :: rest) := by
  rw [strchr_append host.noSlash, strchr, if_pos rfl]

theorem lt_length_link (scheme : Bytes) (host : Host) (rest : Bytes) :
    scheme.length < (scheme ++ host.bytes ++ slash :: rest).length := by
  rw [List.length_append, List.length_append, List.length_cons]
  omega

theorem doHashLink_http (host : Host) (rest : Bytes) (type : HashType) :
    doHashLink hmac msr (httpScheme ++ host.bytes ++ slash :: rest) type = some
        (macLink msr type (httpScheme ++ host.bytes ++ slash :: rest)
          (hmac.hmac (newPwd msr) rest)) := by
  have long := lt_length_link httpScheme host rest
  have begins : ascii ['h', 't', 't', 'p', ':'] <+: httpScheme ++ host.bytes ++ slash :: rest :=
    ⟨slash :: slash :: (host.bytes ++ slash :: rest), rfl⟩
  have behind : (httpScheme ++ host.bytes ++ slash :: rest).drop 7 =
      host.bytes ++ slash :: rest :=
    rfl
  rw [doHashLink, if_pos ⟨long, begins⟩, behind, strchr_host]
  rfl

theorem doHashLink_https (host : Host) (rest : Bytes) (type : HashType) :
    doHashLink hmac msr (httpsScheme ++ host.bytes ++ slash :: rest) type = some
        (macLink msr type (httpsScheme ++ host.bytes ++ slash :: rest)
          (hmac.hmac (newPwd msr) rest)) := by
  have long := lt_length_link httpsScheme host rest
  have notHttp : ¬ ascii ['h', 't', 't', 'p', ':'] <+:
      httpsScheme ++ host.bytes ++ slash :: rest := by
    rintro ⟨tail, same⟩
    cases same
  have begins : ascii ['h', 't', 't', 'p', 's'] <+:
      httpsScheme ++ host.bytes ++ slash :: rest :=
    ⟨colon :: slash :: slash :: (host.bytes ++ slash :: rest), rfl⟩
  have behind : (httpsScheme ++ host.bytes ++ slash :: rest).drop 8 =
      host.bytes ++ slash :: rest :=
    rfl
  rw [doHashLink, if_neg fun both => notHttp both.2, if_pos ⟨long, begins⟩, behind, strchr_host]
  rfl

theorem noFragmentPart_link
    (scheme : Bytes) (plain : numberSign ∉ scheme) (host : Host) (rest : Bytes) :
    noFragmentPart (scheme ++ host.bytes ++ slash :: rest) =
      scheme ++ host.bytes ++ slash :: noFragmentPart rest := by
  have noFragment : numberSign ∉ scheme ++ host.bytes := by
    rw [List.mem_append, not_or]
    exact ⟨plain, host.noFragment⟩
  exact noFragmentPart_append noFragment (slash :: rest)

theorem dropWhile_link (scheme : Bytes) (host : Host) (rest : Bytes) :
    ((scheme ++ host.bytes ++ slash :: rest).drop scheme.length).dropWhile
        (fun byte => byte ≠ slash) =
      slash :: rest := by
  have inside : ∀ byte ∈ host.bytes, decide (byte ≠ slash) = true :=
    fun byte member => decide_eq_true fun same => host.noSlash (same ▸ member)
  rw [List.append_assoc, List.drop_left, List.dropWhile_append_of_pos inside]
  exact List.dropWhile_cons_of_neg (by decide)

theorem pathAndQuery_http (page : Option UriPath) (host : Host) (rest : Bytes) :
    pathAndQuery page (httpScheme ++ host.bytes ++ slash :: rest) =
      noFragmentPart (slash :: rest) := by
  have isPart := noFragmentPart_link httpScheme (by decide) host rest
  rw [noFragmentPart] at isPart
  rw [pathAndQuery, isPart, if_pos ⟨_, (List.append_assoc _ _ _).symm⟩]
  exact dropWhile_link httpScheme host (noFragmentPart rest)

theorem pathAndQuery_https
    (page : Option UriPath) (host : Host) (rest : Bytes) :
    pathAndQuery page (httpsScheme ++ host.bytes ++ slash :: rest) =
      noFragmentPart (slash :: rest) := by
  have isPart := noFragmentPart_link httpsScheme (by decide) host rest
  have notHttp (more : Bytes) : ¬ httpScheme <+: httpsScheme ++ host.bytes ++ more := by
    rintro ⟨tail, same⟩
    cases same
  rw [noFragmentPart] at isPart
  rw [pathAndQuery, isPart, if_neg (notHttp _), if_pos ⟨_, (List.append_assoc _ _ _).symm⟩]
  exact dropWhile_link httpsScheme host (noFragmentPart rest)

theorem pathAndQuery_rooted
    (page : Option UriPath) (rooted : text.head? = some slash) :
    pathAndQuery page text = noFragmentPart text := by
  have partRooted := noFragmentPart_rooted rooted
  have notScheme {word : Bytes} (begins : word.head? ≠ some slash)
      (nonempty : word ≠ []) : ¬ word <+: noFragmentPart text := by
    rintro ⟨tail, same⟩
    rw [← same, List.head?_append_of_ne_nil _ nonempty] at partRooted
    exact begins partRooted
  change (if httpScheme <+: noFragmentPart text then _
      else if httpsScheme <+: noFragmentPart text then _
      else if (noFragmentPart text).head? = some slash then
        noFragmentPart text
      else _) = _
  rw [if_neg (notScheme (by decide) (by decide)),
    if_neg (notScheme (by decide) (by decide)), if_pos partRooted]

theorem not_http_relative (link : Relative) :
    ¬ ascii ['h', 't', 't', 'p', ':'] <+: link.bytes := by
  rintro ⟨tail, same⟩
  refine link.noScheme ?_
  rw [← same, firstSegment]
  change colon ∈ _ :: _ :: _ :: _ :: colon :: _
  simp

theorem not_https_relative (link : Relative) : ¬ httpsScheme <+: link.bytes := by
  rintro ⟨tail, same⟩
  refine link.noScheme ?_
  rw [← same, firstSegment]
  change colon ∈ _ :: _ :: _ :: _ :: _ :: colon :: _
  simp

variable {link : Relative}

theorem doHashLink_relative
    (notHttps : ¬ TakenForHttps link.bytes) (type : HashType) :
    doHashLink hmac msr link.bytes type = msr.path.map fun path =>
        macLink msr type (relativePath path.bytes ++ link.bytes) (hmac.hmac (newPwd msr)
            (relativePath path.bytes ++ link.bytes).tail) := by
  rw [TakenForHttps] at notHttps
  rw [doHashLink, if_neg fun both => not_http_relative link both.2,
    if_neg notHttps, if_neg link.notRooted]

theorem doHashLink_taken (taken : TakenForHttps link.bytes) (type : HashType) :
    doHashLink hmac msr link.bytes type =
      (strchr (link.bytes.drop 8) slash).map fun pathChunk => macLink msr type link.bytes
          (hmac.hmac (newPwd msr) pathChunk.tail) := by
  rw [TakenForHttps] at taken
  rw [doHashLink, if_neg fun both => not_http_relative link both.2, if_pos taken]

theorem pathAndQuery_taken
    (taken : TakenForHttps link.bytes) (page : Option UriPath) (more : Bytes) :
    pathAndQuery page (link.bytes ++ more) =
      noFragmentPart (directory page ++ link.bytes ++ more) := by
  obtain ⟨long, tail, isLink⟩ := taken
  have isPart := noFragmentPart_append link.noFragment more
  have notHttp (more : Bytes) : ¬ httpScheme <+: link.bytes ++ more := by
    rintro ⟨other, same⟩
    rw [← isLink] at same
    cases same
  have notHttps (more : Bytes) : ¬ httpsScheme <+: link.bytes ++ more := by
    intro begins
    refine not_https_relative link ?_
    refine List.prefix_of_prefix_length_le begins (List.prefix_append _ _) ?_
    have : httpsScheme.length = 8 := rfl
    omega
  have notRooted (more : Bytes) : (link.bytes ++ more).head? ≠ some slash := by
    have isHead : (link.bytes ++ more).head? = some 0x68 := by
      rw [← isLink]
      rfl
    rw [isHead]
    decide
  rw [List.append_assoc, noFragmentPart_append (directory_noFragment page) _, isPart]
  rw [noFragmentPart] at isPart
  rw [pathAndQuery, isPart, if_neg (notHttp _), if_neg (notHttps _), if_neg (notRooted _)]

end

end Cookbook.ModSecurity.Hash
