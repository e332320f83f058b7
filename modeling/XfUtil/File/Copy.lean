import XfUtil.File.Model

/-!
# What `Copy` leaves behind

Whatever the environment answers, the destination holds a prefix of the source, and all
of it if `Copy` returns true, provided that the two paths do not name one file. A copy
of a file onto itself empties it and returns true.
-/

namespace XfUtil.File

open FlatMemory OpenFiles

variable {ι : Type*}

/-! ## Passes of the loop -/

/-- What is not the destination is as it was, and so are all other descriptors. -/
structure Framed (src dst : File) (j : ι) (k k' : Kernel ι Byte) : Prop where
  content : ∀ i, i ≠ j → k'.content i = k.content i
  descriptions : ∀ fd, fd ≠ src.fid → fd ≠ dst.fid → k'.description fd = k.description fd
  umask : k'.umask = k.umask
  mode : k'.mode = k.mode

theorem Framed.refl (src dst : File) (j : ι) (k : Kernel ι Byte) : Framed src dst j k k :=
  ⟨fun _ _ => rfl, fun _ _ _ => rfl, rfl, rfl⟩

theorem Framed.trans {src dst : File} {j : ι} {k k' k'' : Kernel ι Byte}
    (h : Framed src dst j k k') (h' : Framed src dst j k' k'') : Framed src dst j k k'' :=
  ⟨fun i hi => (h'.content i hi).trans (h.content i hi),
    fun fd hs hd => (h'.descriptions fd hs hd).trans (h.descriptions fd hs hd),
    h'.umask.trans h.umask, h'.mode.trans h.mode⟩

/-- Between two passes the first `n` bytes have been copied. A file that is copied onto itself
is empty. -/
structure Copied (src dst : File) (i j : ι) (bytes : List Byte) (n : Nat)
    (k : Kernel ι Byte) : Prop where
  le : n ≤ bytes.length
  apart : i = j → bytes = []
  fids : src.fid ≠ dst.fid
  source : k.content i = some bytes
  dest : k.content j = some (bytes.take n)
  srcFile : ∃ acc, k.description src.fid = some ⟨i, acc, n⟩
  dstFile : ∃ acc, acc.append = false ∧ k.description dst.fid = some ⟨j, acc, n⟩

variable {src dst : File} {i j : ι} {bytes : List Byte} {n : Nat} {k k₁ k' : Kernel ι Byte}
  {valid : Bool} {as as₁ rest : List Answer}

/-- `Read` in the loop: it fails, or is at the end of the file, or yields bytes. -/
theorem Copied.read (hc : Copied src dst i j bytes n k) {r : Except Errno (List Byte)}
    (h : src.read bufSize valid k as = some (r, k₁, as₁)) :
    (∃ e, r = .error e ∧ k₁ = k) ∨
      ∃ m, r = .ok ((bytes.drop n).take m) ∧ 0 < m ∧ Framed src dst j k k₁ ∧
        k₁.content = k.content ∧ k₁.description dst.fid = k.description dst.fid ∧
        ∃ acc, k₁.description src.fid = some ⟨i, acc, n + ((bytes.drop n).take m).length⟩ := by
  obtain ⟨-, a, -, -, hcall⟩ := (Kernel.read_restartable src.fid bufSize valid).retry_eq_some h
  rcases Kernel.read_eq hcall with ⟨e, rfl, rfl⟩ | ⟨d, m, hd, hm, rfl, rfl⟩
  · exact Or.inl ⟨e, rfl, rfl⟩
  · obtain ⟨acc, hacc⟩ := hc.srcFile
    obtain rfl := Option.some.inj (hacc.symm.trans hd)
    have hbytes : k.bytes i = bytes := by simp [Kernel.bytes, hc.source]
    have hpos : 0 < min bufSize m := by
      have hsize : 0 < bufSize := by decide
      omega
    refine Or.inr ⟨min bufSize m, by simp [hbytes], hpos, ?_, by simp, ?_, acc, ?_⟩
    · refine ⟨fun _ _ => by simp, fun fd hfd _ => ?_, by simp, by simp⟩
      rw [Kernel.description_assign hd, if_neg hfd]
    · rw [Kernel.description_assign hd, if_neg hc.fids.symm]
    · rw [Kernel.description_assign hd, if_pos rfl]
      simp [hbytes]

/-- A prefix, with some of what follows it. -/
theorem take_append_taken (bytes : List Byte) (n m : Nat) :
    bytes.take n ++ (bytes.drop n).take m =
      bytes.take (n + ((bytes.drop n).take m).length) := by
  rw [List.take_add, List.length_take, ← List.take_eq_take_min]

variable [DecidableEq ι]

/-- `Write` of what has been read: some of it goes to the end of the destination, or none. -/
theorem Copied.write (hc : Copied src dst i j bytes n k) {k₁ : Kernel ι Byte} {m : Nat}
    (hframe : Framed src dst j k k₁) (hcontent : k₁.content = k.content)
    (hdst : k₁.description dst.fid = k.description dst.fid)
    (hsrc : ∃ acc, k₁.description src.fid = some ⟨i, acc, n + ((bytes.drop n).take m).length⟩)
    {r : Except Errno Nat}
    (h : dst.write ((bytes.drop n).take m) k₁ as = some (r, k', rest)) :
    (∃ e, r = .error e ∧ k' = k₁) ∨
      ∃ l, r = .ok l ∧ l ≤ ((bytes.drop n).take m).length ∧ Framed src dst j k k' ∧
        k'.content j = some (bytes.take (n + l)) ∧
        (l = ((bytes.drop n).take m).length → Copied src dst i j bytes (n + l) k') := by
  obtain ⟨-, a, -, -, hcall⟩ := (Kernel.write_restartable dst.fid _).retry_eq_some h
  rcases Kernel.write_eq hcall with ⟨e, rfl, rfl⟩ | ⟨d, c, hd, rfl, hk'⟩
  · exact Or.inl ⟨e, rfl, rfl⟩
  · obtain ⟨acc, happend, hacc⟩ := hc.dstFile
    obtain rfl := Option.some.inj ((hacc.symm.trans hdst.symm).trans hd)
    have hlen : (bytes.take n).length = n := by simp [hc.le]
    have hbytes : k₁.bytes j = bytes.take n := by simp [Kernel.bytes, hcontent, hc.dest]
    -- The offset is the length of what is there, so the bytes go to its end.
    have hover : Kernel.overwrite (bytes.take n) n (((bytes.drop n).take m).take c) =
        bytes.take (n + (((bytes.drop n).take m).take c).length) := by
      have hend := Kernel.overwrite_length (bytes.take n) (((bytes.drop n).take m).take c)
      rw [hlen] at hend
      rw [hend, List.take_take, take_append_taken]
    simp only [happend, hbytes, Bool.false_eq_true, if_false, hover] at hk'
    have hframe' : Framed src dst j k₁ k' := by
      refine ⟨fun x hx => ?_, fun fd _ hfd => ?_, by simp [hk', Kernel.setContent],
        by simp [hk', Kernel.setContent]⟩
      · rw [hk', Kernel.assign_content, Kernel.setContent_of_ne _ hx]
      · rw [hk', Kernel.description_assign (k := k₁.setContent j _) hd, if_neg hfd]
        rfl
    have hdest : k'.content j =
        some (bytes.take (n + (((bytes.drop n).take m).take c).length)) := by
      rw [hk', Kernel.assign_content, Kernel.setContent_self]
    refine Or.inr ⟨_, rfl, List.length_take_le' .., hframe.trans hframe', hdest, fun hl => ?_⟩
    obtain ⟨acc', hacc'⟩ := hsrc
    rw [hl] at hdest ⊢
    refine ⟨?_, hc.apart, hc.fids, ?_, hdest, ⟨acc', ?_⟩, acc, happend, ?_⟩
    · have hle := hc.le
      simp only [List.length_take, List.length_drop]
      omega
    · by_cases hij : i = j
      · rw [hij, hdest, hc.apart hij, List.take_nil]
      · rw [hframe'.content i hij, hcontent, hc.source]
    · rw [hk', Kernel.description_assign (k := k₁.setContent j _) hd, if_neg hc.fids]
      exact hacc'
    · rw [hk', Kernel.description_assign (k := k₁.setContent j _) hd, if_pos rfl, hl]

/-- The loop leaves a prefix behind, and returns true only at the end of the source. -/
theorem Copied.copyLoop {fuel : Nat} (hc : Copied src dst i j bytes n k) {b : Bool}
    (h : copyLoop src dst valid fuel k as = some (b, k', rest)) :
    Framed src dst j k k' ∧ ∃ m, k'.content j = some (bytes.take m) ∧
      (b = true → bytes.length ≤ m) := by
  induction fuel generalizing n k as with
  | zero => cases h
  | succ fuel ih =>
      rw [File.copyLoop] at h
      cases hread : src.read bufSize valid k as with
      | none => simp [hread] at h
      | some x =>
          obtain ⟨r, k₁, as₁⟩ := x
          rw [hread] at h
          rcases hc.read hread with ⟨e, rfl, rfl⟩ | ⟨m, rfl, hm, hframe, hcontent, hdst, hsrc⟩
          · obtain ⟨rfl, rfl, rfl⟩ : b = false ∧ k' = k₁ ∧ rest = as₁ := by
              simpa [eq_comm] using h
            exact ⟨Framed.refl .., n, hc.dest, by simp⟩
          · dsimp only at h
            split at h
            · rename_i hend
              obtain ⟨rfl, rfl, rfl⟩ : b = true ∧ k' = k₁ ∧ rest = as₁ := by
                simpa [eq_comm] using h
              refine ⟨hframe, n, by rw [hcontent, hc.dest], fun _ => ?_⟩
              have hnil : ((bytes.drop n).take m).length = 0 := by rw [hend]; rfl
              simp only [List.length_take, List.length_drop] at hnil
              omega
            · cases hwrite : dst.write ((bytes.drop n).take m) k₁ as₁ with
              | none => simp [hwrite] at h
              | some y =>
                  obtain ⟨r', k₂, as₂⟩ := y
                  rw [hwrite] at h
                  rcases hc.write hframe hcontent hdst hsrc hwrite with
                    ⟨e, rfl, rfl⟩ | ⟨l, rfl, hl, hframe', hdest, hnext⟩
                  · obtain ⟨rfl, rfl, rfl⟩ : b = false ∧ k' = k₂ ∧ rest = as₂ := by
                      simpa [eq_comm] using h
                    exact ⟨hframe, n, by rw [hcontent, hc.dest], by simp⟩
                  · dsimp only at h
                    split at h
                    · obtain ⟨rfl, rfl, rfl⟩ : b = false ∧ k' = k₂ ∧ rest = as₂ := by
                        simpa [eq_comm] using h
                      exact ⟨hframe', n + l, hdest, by simp⟩
                    · rename_i hfull
                      have hall : l = ((bytes.drop n).take m).length := not_not.mp hfull
                      obtain ⟨hrest, m', hm', hb⟩ := ih (hnext hall) h
                      exact ⟨hframe'.trans hrest, m', hm', hb⟩

/-! ## `Open` -/

/-- What a successful `Open` does. -/
structure Opened (i : ι) (flags : BitVec 32) (fd : Nat) (k k' : Kernel ι Byte) : Prop where
  fresh : k.description (some fd) = none
  own : k'.description (some fd) = some ⟨i, access (flags ||| oLargefile), 0⟩
  others : ∀ fd', fd' ≠ some fd → k'.description fd' = k.description fd'
  umask : k'.umask = k.umask
  exist : k.content i = none → (access (flags ||| oLargefile)).create = true
  content : k'.content =
    if k.content i = none ∨ ((access (flags ||| oLargefile)).truncate &&
        (access (flags ||| oLargefile)).writable) = true then
      Function.update k.content i (some [])
    else k.content
  mode : k'.mode = if k.content i = none then Function.update k.mode i 0o644#32 else k.mode

theorem prepare_eq {k k' : Kernel ι Byte} {i : ι} {acc : Access} {mode : BitVec 32}
    (h : k.prepare i acc mode = some k') :
    k'.umask = k.umask ∧ (k.content i = none → acc.create = true) ∧
      k'.content = (if k.content i = none ∨ (acc.truncate && acc.writable) = true then
        Function.update k.content i (some []) else k.content) ∧
      k'.mode = if k.content i = none then Function.update k.mode i (mode &&& ~~~k.umask)
        else k.mode := by
  unfold Kernel.prepare at h
  cases hi : k.content i with
  | none =>
      rw [hi] at h
      dsimp only at h
      split at h
      · rename_i hcreate
        cases h
        exact ⟨rfl, fun _ => hcreate, by simp [Kernel.setContent], by simp⟩
      · cases h
  | some content =>
      rw [hi] at h
      obtain rfl := Option.some.inj h
      refine ⟨?_, by simp, ?_, ?_⟩ <;> split <;> simp_all [Kernel.setContent]

theorem open_eq {resolve : FilePath → ι} {path : FilePath} {flags : BitVec 32}
    {k k' : Kernel ι Byte} {a : Answer} {f : File}
    (h : File.open resolve path flags k a = (f, k')) :
    (f.fid = none ∧ k' = k) ∨
      ∃ fd, f.fid = some fd ∧ Opened (resolve path) flags fd k k' := by
  unfold File.open at h
  obtain ⟨rfl, rfl⟩ := Prod.mk.inj h
  by_cases hpath : path = []
  · exact Or.inl ⟨by simp [hpath, Except.toOption], by simp [hpath]⟩
  · simp only [hpath, if_false]
    cases a with
    | error e => exact Or.inl ⟨rfl, rfl⟩
    | count n =>
        rw [Kernel.open]
        cases hprep : ({ k with umask := 0#32 } : Kernel ι Byte).prepare (resolve path)
            (access (flags ||| oLargefile)) 0o644#32 with
        | none => exact Or.inl ⟨rfl, rfl⟩
        | some k₁ =>
            obtain ⟨-, hexist, hcontent, hmode⟩ := prepare_eq hprep
            have hmask : (0o644#32 &&& ~~~0#32) = 0o644#32 := by decide
            rw [hmask] at hmode
            refine Or.inr ⟨lowest k.table, rfl, lookup_lowest k.table, ?_, ?_, rfl, hexist,
              hcontent, hmode⟩
            · exact (lookup_install ..).trans (if_pos rfl)
            · intro fd' hfd'
              cases fd' with
              | none => rfl
              | some n =>
                  have hn : n ≠ lowest k.table := fun heq => hfd' (heq ▸ rfl)
                  exact (lookup_install ..).trans (if_neg hn)

/-! ## `Copy` -/

theorem Opened.readonly {fd : Nat} (ho : Opened i ofReadonly fd k k') :
    k.content i ≠ none ∧ k'.content = k.content ∧ k'.mode = k.mode := by
  have hexist : k.content i ≠ none := fun h => absurd (ho.exist h) (by decide)
  have htruncate : ((access (ofReadonly ||| oLargefile)).truncate &&
      (access (ofReadonly ||| oLargefile)).writable) = false := by decide
  refine ⟨hexist, ?_, ?_⟩
  · rw [ho.content, if_neg (by simp [hexist, htruncate])]
  · rw [ho.mode, if_neg hexist]

theorem Opened.emptied {fd : Nat} (ho : Opened i copyFlags fd k k') :
    k'.content = Function.update k.content i (some []) := by
  have htruncate : ((access (copyFlags ||| oLargefile)).truncate &&
      (access (copyFlags ||| oLargefile)).writable) = true := by decide
  rw [ho.content, if_pos (Or.inr htruncate)]

variable {resolve : FilePath → ι} {srcPath dstPath : FilePath} {syncs b : Bool}

theorem copyOpen_eq_some (h : copyOpen src dst syncs k as = some (b, k', rest)) :
    ∃ valid fuel as₁ as₂, copyLoop src dst valid fuel k as₁ = some (b, k', as₂) := by
  cases as with
  | nil => cases h
  | cons a as =>
      refine ⟨allocates a, as.length, as, ?_⟩
      rw [copyOpen] at h
      cases hloop : copyLoop src dst (allocates a) as.length k as with
      | none => simp [hloop] at h
      | some x =>
          obtain ⟨b', k₁, as₁⟩ := x
          refine ⟨as₁, ?_⟩
          rw [hloop] at h
          cases b' with
          | false =>
              obtain ⟨rfl, rfl, rfl⟩ : false = b ∧ k₁ = k' ∧ as₁ = rest := by simpa using h
              rfl
          | true =>
              dsimp only at h
              split at h
              · obtain ⟨as₂, -, heq⟩ := Option.map_eq_some_iff.mp h
                obtain ⟨rfl, rfl, rfl⟩ : true = b ∧ k₁ = k' ∧ as₂ = rest := by simpa using heq
                rfl
              · obtain ⟨rfl, rfl, rfl⟩ : true = b ∧ k₁ = k' ∧ as₁ = rest := by simpa using h
                rfl

/-- How `Copy` comes to its end. -/
theorem copy_eq_some (h : copy resolve srcPath dstPath syncs k as = some (b, k', rest)) :
    (b = false ∧ k' = k) ∨
      ∃ s k₁, Opened (resolve srcPath) ofReadonly s k k₁ ∧
        ((b = false ∧ k' = k₁.close (some s)) ∨
          ∃ d k₂ valid fuel as₂ k₃ as₃, Opened (resolve dstPath) copyFlags d k₁ k₂ ∧
            copyLoop ⟨some s⟩ ⟨some d⟩ valid fuel k₂ as₂ = some (b, k₃, as₃) ∧
            k' = (k₃.close (some d)).close (some s)) := by
  cases as with
  | nil => cases h
  | cons a as =>
      rw [copy] at h
      cases hsrc : File.open resolve srcPath ofReadonly k a with
      | mk src k₁ =>
          obtain ⟨sfid⟩ := src
          rw [hsrc] at h
          rcases open_eq hsrc with ⟨rfl, rfl⟩ | ⟨s, rfl, ho⟩
          · obtain ⟨rfl, rfl, -⟩ : false = b ∧ k₁ = k' ∧ as = rest := by
              simpa [File.valid] using h
            exact Or.inl ⟨rfl, rfl⟩
          · refine Or.inr ⟨s, k₁, ho, ?_⟩
            cases as with
            | nil => cases h
            | cons a as =>
                cases hdst : File.open resolve dstPath copyFlags k₁ a with
                | mk dst k₂ =>
                    obtain ⟨dfid⟩ := dst
                    simp only [File.valid, Option.isSome_some, Bool.not_true, Bool.false_eq_true,
                      if_false, hdst] at h
                    rcases open_eq hdst with ⟨rfl, rfl⟩ | ⟨d, rfl, ho'⟩
                    · obtain ⟨rfl, rfl, -⟩ :
                          false = b ∧ File.close ⟨some s⟩ k₂ = k' ∧ as = rest := by
                        simpa using h
                      exact Or.inl ⟨rfl, rfl⟩
                    · obtain ⟨⟨b', k₃, as₃⟩, hopen, heq⟩ :
                          ∃ r, copyOpen ⟨some s⟩ ⟨some d⟩ syncs k₂ as = some r ∧
                            (r.1, File.close ⟨some s⟩ (File.close ⟨some d⟩ r.2.1), r.2.2) =
                              (b, k', rest) := by
                        simpa using h
                      cases heq
                      obtain ⟨valid, fuel, as₁, as₂, hloop⟩ := copyOpen_eq_some hopen
                      exact Or.inr ⟨d, k₂, valid, fuel, as₁, k₃, as₂, ho', hloop, rfl⟩

/-! ## What `Copy` does to the files -/

variable {s d : Nat} {k₂ k₃ : Kernel ι Byte}

theorem Opened.fids_ne (hs : Opened i ofReadonly s k k₁) (hd : Opened j copyFlags d k₁ k₂) :
    s ≠ d := by
  intro h
  have hown := hs.own
  rw [h, hd.fresh] at hown
  cases hown

/-- With both files open nothing has been copied, and the destination is empty. -/
theorem Copied.start (hs : Opened i ofReadonly s k k₁) (hd : Opened j copyFlags d k₁ k₂)
    (hbytes : k.content i = some bytes) :
    Copied ⟨some s⟩ ⟨some d⟩ i j (if i = j then [] else bytes) 0 k₂ := by
  have hsource : k₁.content i = some bytes := by rw [hs.readonly.2.1, hbytes]
  have hne := hs.fids_ne hd
  refine ⟨Nat.zero_le _, fun h => if_pos h, by simpa using hne, ?_, ?_, ?_, ?_⟩
  · rw [hd.emptied]
    by_cases hij : i = j
    · rw [if_pos hij, hij, Function.update_self]
    · rw [if_neg hij, Function.update_of_ne hij, hsource]
  · rw [hd.emptied, Function.update_self, List.take_zero]
  · exact ⟨_, (hd.others (some s) (by simpa using hne)).trans hs.own⟩
  · exact ⟨_, by decide, hd.own⟩

/-- The files that `Copy` has opened are closed, and no others. -/
theorem closed_descriptions (hs : Opened i ofReadonly s k k₁) (hd : Opened j copyFlags d k₁ k₂)
    (hframe : Framed ⟨some s⟩ ⟨some d⟩ j k₂ k₃) (fd : Option Nat) :
    ((k₃.close (some d)).close (some s)).description fd = k.description fd := by
  rw [Kernel.description_close, Kernel.description_close]
  have hne := hs.fids_ne hd
  by_cases hfs : fd = some s
  · rw [if_pos hfs, hfs, hs.fresh]
  · rw [if_neg hfs]
    have hk₁ := hs.others fd hfs
    by_cases hfd : fd = some d
    · rw [if_pos hfd, ← hk₁, hfd, hd.fresh]
    · rw [if_neg hfd, hframe.descriptions fd hfs hfd, hd.others fd hfd, hk₁]

/-- What `Copy` leaves in the destination, if it has opened it: a prefix of what the source
holds then, and all of it if it returns true. -/
theorem copy_dest (h : copy resolve srcPath dstPath syncs k as = some (b, k', rest)) :
    (b = false ∧ k'.content = k.content) ∨
      ∃ bytes m, k.content (resolve srcPath) = some bytes ∧
        k'.content = Function.update k.content (resolve dstPath)
          (some ((if resolve srcPath = resolve dstPath then [] else bytes).take m)) ∧
        (b = true → (if resolve srcPath = resolve dstPath then [] else bytes).length ≤ m) := by
  rcases copy_eq_some h with ⟨hb, rfl⟩ | ⟨s, k₁, hs, ⟨hb, rfl⟩ | hopen⟩
  · exact Or.inl ⟨hb, rfl⟩
  · exact Or.inl ⟨hb, by simp [Kernel.close, hs.readonly.2.1]⟩
  · obtain ⟨d, k₂, valid, fuel, as₁, k₃, as₂, hd, hloop, rfl⟩ := hopen
    obtain ⟨bytes, hbytes⟩ := Option.ne_none_iff_exists'.mp hs.readonly.1
    obtain ⟨hframe, m, hm, hb⟩ := (Copied.start hs hd hbytes).copyLoop hloop
    refine Or.inr ⟨bytes, m, hbytes, ?_, hb⟩
    funext i
    rw [Kernel.close, Kernel.close, Kernel.assign_content, Kernel.assign_content]
    by_cases hi : i = resolve dstPath
    · rw [hi, hm, Function.update_self]
    · rw [hframe.content i hi, hd.emptied, hs.readonly.2.1, Function.update_of_ne hi,
        Function.update_of_ne hi]

/-- Whatever happens, the copy of a file to another one leaves a prefix of it there, or what
was there; if `Copy` returns true, the files are equal. No other file is changed. -/
theorem copy_other (hne : resolve srcPath ≠ resolve dstPath)
    (h : copy resolve srcPath dstPath syncs k as = some (b, k', rest)) :
    (∀ i, i ≠ resolve dstPath → k'.content i = k.content i) ∧
      (k'.content (resolve dstPath) = k.content (resolve dstPath) ∨
        ∃ bytes p, k.content (resolve srcPath) = some bytes ∧
          k'.content (resolve dstPath) = some p ∧ p <+: bytes) ∧
      (b = true → k.content (resolve srcPath) ≠ none ∧
        k'.content (resolve dstPath) = k.content (resolve srcPath)) := by
  rcases copy_dest h with ⟨rfl, hcontent⟩ | ⟨bytes, m, hbytes, hcontent, hb⟩
  · exact ⟨fun i _ => by rw [hcontent], Or.inl (by rw [hcontent]), by simp⟩
  · rw [if_neg hne] at hcontent hb
    rw [hcontent, Function.update_self]
    refine ⟨fun i hi => Function.update_of_ne hi .., Or.inr ⟨bytes, _, hbytes, rfl,
      List.take_prefix ..⟩, fun htrue => ⟨by simp [hbytes], ?_⟩⟩
    rw [hbytes, List.take_of_length_le (hb htrue)]

/-- A file of three bytes. -/
def threeBytes : Kernel Nat Byte where
  content := fun i => if i = 1 then some [10#8, 20#8, 30#8] else none
  mode := fun _ => 0o600#32
  umask := 0o22#32
  table := []

/-- Two bytes are read and written at a time, and the first read is interrupted. -/
def copyThreeBytes (dstPath : FilePath) : Option (Bool × Kernel Nat Byte × List Answer) :=
  copy List.length [0x61#8] dstPath true threeBytes
    (.count 0 :: .count 0 :: .count 0 :: .error eintr :: List.replicate 11 (.count 2))

theorem copyThreeBytes_eq {dstPath : FilePath} (h : (copyThreeBytes dstPath).isSome) :
    copy List.length [0x61#8] dstPath true threeBytes
      (.count 0 :: .count 0 :: .count 0 :: .error eintr :: List.replicate 11 (.count 2)) =
    some (((copyThreeBytes dstPath).get h).1, ((copyThreeBytes dstPath).get h).2.1,
      ((copyThreeBytes dstPath).get h).2.2) :=
  (Option.some_get h).symm

theorem copy_other_threeBytes :
    ((copyThreeBytes [0x61#8, 0x62#8]).get (by decide)).2.1.content 2 = threeBytes.content 1 :=
  ((copy_other (by decide) (copyThreeBytes_eq (by decide))).2.2
    (by decide)).2

/-- A copy that returns true is one, unless it has emptied its own source. -/
theorem copy_faithful_iff
    (h : copy resolve srcPath dstPath syncs k as = some (true, k', rest)) :
    k'.content (resolve dstPath) = k.content (resolve srcPath) ↔
      (resolve srcPath = resolve dstPath → k.content (resolve srcPath) = some []) := by
  rcases copy_dest h with ⟨hb, -⟩ | ⟨bytes, m, hbytes, hcontent, hb⟩
  · cases hb
  · rw [hcontent, Function.update_self, hbytes, List.take_of_length_le (hb rfl)]
    by_cases heq : resolve srcPath = resolve dstPath
    · simp [heq, eq_comm]
    · simp [heq]

theorem copy_faithful_iff_threeBytes :
    ((copyThreeBytes [0x62#8]).get (by decide)).2.1.content 1 ≠ threeBytes.content 1 := by
  have hcopy := copyThreeBytes_eq (show (copyThreeBytes [0x62#8]).isSome by decide)
  have htrue : ((copyThreeBytes [0x62#8]).get (by decide)).1 = true := by decide
  rw [htrue] at hcopy
  intro h
  have hempty := (copy_faithful_iff hcopy).mp h rfl
  exact absurd hempty (by decide)

/-- `Copy` leaves no file open, closes none of the others, and keeps the mask of the process
and the modes of the files that were there. -/
theorem copy_released (h : copy resolve srcPath dstPath syncs k as = some (b, k', rest)) :
    (∀ fd, k'.description fd = k.description fd) ∧ k'.umask = k.umask ∧
      ∀ i, k.content i ≠ none → k'.mode i = k.mode i := by
  rcases copy_eq_some h with ⟨-, rfl⟩ | ⟨s, k₁, hs, ⟨-, rfl⟩ | hopen⟩
  · exact ⟨fun _ => rfl, rfl, fun _ _ => rfl⟩
  · refine ⟨fun fd => ?_, by simp [Kernel.close, hs.umask], fun i _ => ?_⟩
    · rw [Kernel.description_close]
      by_cases hfd : fd = some s
      · rw [if_pos hfd, hfd, hs.fresh]
      · rw [if_neg hfd, hs.others fd hfd]
    · simp [Kernel.close, hs.readonly.2.2]
  · obtain ⟨d, k₂, valid, fuel, as₁, k₃, as₂, hd, hloop, rfl⟩ := hopen
    obtain ⟨bytes, hbytes⟩ := Option.ne_none_iff_exists'.mp hs.readonly.1
    obtain ⟨hframe, -⟩ := (Copied.start hs hd hbytes).copyLoop hloop
    refine ⟨closed_descriptions hs hd hframe, ?_, fun i hi => ?_⟩
    · simp [Kernel.close, hframe.umask, hd.umask, hs.umask]
    · have hmode : k₂.mode i = k.mode i := by
        rw [hd.mode, ← hs.readonly.2.2]
        split
        · rename_i habsent
          rw [hs.readonly.2.1] at habsent
          have hij : i ≠ resolve dstPath := fun h => hi (h ▸ habsent)
          rw [Function.update_of_ne hij]
        · rfl
      simp [Kernel.close, hframe.mode, hmode]

theorem copy_released_threeBytes :
    ((copyThreeBytes [0x61#8, 0x62#8]).get (by decide)).2.1.umask = 0o22#32 :=
  (copy_released (copyThreeBytes_eq (by decide))).2.1

/-! ## That `Copy` returns -/

omit [DecidableEq ι] in
theorem uninterrupted_cons_le (a : Answer) (as : List Answer) :
    uninterrupted (a :: as) ≤ uninterrupted as + 1 := by
  unfold uninterrupted
  rw [List.countP_cons]
  split <;> omega

/-- A pass of the loop copies a byte at least, so two calls for each byte are enough, and one
for the end of the file. -/
theorem Copied.copyLoop_returns {fuel : Nat} (hc : Copied src dst i j bytes n k)
    (hfuel : as.length ≤ fuel) (has : 2 * (bytes.length - n) + 1 ≤ uninterrupted as) :
    ∃ b k' rest, File.copyLoop src dst valid fuel k as = some (b, k', rest) ∧
      uninterrupted as ≤ uninterrupted rest + (2 * (bytes.length - n) + 1) := by
  induction fuel generalizing n k as with
  | zero =>
      rw [List.length_eq_zero_iff.mp (Nat.le_zero.mp hfuel)] at has
      simp at has
  | succ fuel ih =>
      have hleft : 0 < uninterrupted as := by omega
      obtain ⟨r, k₁, as₁, hread, hcount, hlen⟩ :=
        (Kernel.read_restartable src.fid bufSize valid).exists_retry k hleft
      replace hread : src.read bufSize valid k as = some (r, k₁, as₁) := hread
      rw [File.copyLoop, hread]
      rcases hc.read hread with ⟨e, rfl, rfl⟩ | ⟨m, rfl, hm, hframe, hcontent, hdst, hsrc⟩
      · exact ⟨_, _, _, rfl, by omega⟩
      · dsimp only
        split
        · exact ⟨_, _, _, rfl, by omega⟩
        · rename_i hmore
          have hpos : 0 < ((bytes.drop n).take m).length := List.length_pos_iff.mpr hmore
          have hle : ((bytes.drop n).take m).length ≤ bytes.length - n := by
            simp only [List.length_take, List.length_drop]
            omega
          have hleft' : 0 < uninterrupted as₁ := by omega
          obtain ⟨r', k₂, as₂, hwrite, hcount', hlen'⟩ :=
            (Kernel.write_restartable dst.fid ((bytes.drop n).take m)).exists_retry k₁ hleft'
          replace hwrite : dst.write ((bytes.drop n).take m) k₁ as₁ = some (r', k₂, as₂) := hwrite
          rw [hwrite]
          rcases hc.write hframe hcontent hdst hsrc hwrite with
            ⟨e, rfl, rfl⟩ | ⟨l, rfl, hl, hframe', hdest, hnext⟩
          · exact ⟨_, _, _, rfl, by omega⟩
          · dsimp only
            split
            · exact ⟨_, _, _, rfl, by omega⟩
            · rename_i hfull
              have hall : l = ((bytes.drop n).take m).length := not_not.mp hfull
              have henough : 2 * (bytes.length - (n + l)) + 1 ≤ uninterrupted as₂ := by omega
              obtain ⟨b, k', rest, hloop, hbound⟩ := ih (hnext hall) (by omega) henough
              exact ⟨b, k', rest, hloop, by omega⟩

theorem Copied.copyOpen_returns (hc : Copied src dst i j bytes 0 k) (syncs : Bool)
    (has : 2 * bytes.length + 3 ≤ uninterrupted as) :
    ∃ r, copyOpen src dst syncs k as = some r ∧
      uninterrupted as ≤ uninterrupted r.2.2 + (2 * bytes.length + 3) := by
  cases as with
  | nil => simp at has
  | cons a as =>
      have hcons := uninterrupted_cons_le a as
      have hreturns : ∃ b k' rest, File.copyLoop src dst (allocates a) as.length k as =
            some (b, k', rest) ∧
          uninterrupted as ≤ uninterrupted rest + (2 * (bytes.length - 0) + 1) :=
        hc.copyLoop_returns (Nat.le_refl as.length) (by omega)
      obtain ⟨b, k', rest, hloop, hbound⟩ := hreturns
      rw [copyOpen, hloop]
      cases b with
      | false => exact ⟨_, rfl, by dsimp only; omega⟩
      | true =>
          dsimp only
          split
          · cases rest with
            | nil =>
                simp only [uninterrupted_nil] at hbound
                omega
            | cons a' rest =>
                have hcons' := uninterrupted_cons_le a' rest
                exact ⟨_, rfl, by dsimp only; omega⟩
          · exact ⟨_, rfl, by dsimp only; omega⟩

/-- `Copy` returns unless the environment goes on interrupting its calls: it makes two calls
for each byte of the source at most that are not interrupted, and five more. -/
theorem copy_returns (resolve : FilePath → ι) (srcPath dstPath : FilePath) (syncs : Bool)
    (k : Kernel ι Byte) (as : List Answer)
    (has : 2 * (k.bytes (resolve srcPath)).length + 5 ≤ uninterrupted as) :
    ∃ b k' rest, copy resolve srcPath dstPath syncs k as = some (b, k', rest) ∧
      uninterrupted as ≤ uninterrupted rest + (2 * (k.bytes (resolve srcPath)).length + 5) := by
  cases as with
  | nil => simp at has
  | cons a as =>
      have hcons := uninterrupted_cons_le a as
      rw [copy]
      cases hsrc : File.open resolve srcPath ofReadonly k a with
      | mk src k₁ =>
          obtain ⟨sfid⟩ := src
          rcases open_eq hsrc with ⟨rfl, rfl⟩ | ⟨s, rfl, hs⟩
          · exact ⟨_, _, _, rfl, by omega⟩
          · cases as with
            | nil =>
                simp only [uninterrupted_nil] at hcons
                omega
            | cons a as =>
                have hcons' := uninterrupted_cons_le a as
                cases hdst : File.open resolve dstPath copyFlags k₁ a with
                | mk dst k₂ =>
                    obtain ⟨dfid⟩ := dst
                    simp only [File.valid, Option.isSome_some, Bool.not_true, Bool.false_eq_true,
                      if_false, hdst]
                    rcases open_eq hdst with ⟨rfl, rfl⟩ | ⟨d, rfl, hd⟩
                    · exact ⟨_, _, _, rfl, by omega⟩
                    · obtain ⟨bytes, hbytes⟩ := Option.ne_none_iff_exists'.mp hs.readonly.1
                      have hlen : (if resolve srcPath = resolve dstPath then ([] : List Byte)
                          else bytes).length ≤ (k.bytes (resolve srcPath)).length := by
                        rw [Kernel.bytes, hbytes]
                        split <;> simp
                      have hleft : 2 * (if resolve srcPath = resolve dstPath then
                          ([] : List Byte) else bytes).length + 3 ≤ uninterrupted as := by
                        omega
                      obtain ⟨⟨b, k₃, rest⟩, hopen, hbound⟩ :=
                        (Copied.start hs hd hbytes).copyOpen_returns syncs hleft
                      refine ⟨b, _, rest, by simp [hopen]; rfl, ?_⟩
                      dsimp only at hbound
                      omega

theorem copy_returns_threeBytes : ∃ b k' rest,
    copy List.length [0x61#8] [0x61#8, 0x62#8] true threeBytes (List.replicate 11 (.count 0)) =
        some (b, k', rest) ∧
      uninterrupted (List.replicate 11 (.count 0)) ≤ uninterrupted rest + 11 :=
  copy_returns List.length [0x61#8] [0x61#8, 0x62#8] true threeBytes
    (List.replicate 11 (.count 0)) (by decide)

end XfUtil.File
