/-!
# Reading UTF-8

Bytes become text up to the first that is not part of a well-formed character.  In its place stands
U+0000, which no format that is read here admits, so whoever reads on comes to grief there.

* `decodeUtf8`.
-/

namespace HtmlTree.Text

/-- decodes from byte `i` on, at most `limit` characters -/
def decodeUtf8From (bytes : ByteArray) : (limit i : Nat) → Array Char → Array Char
  | 0, _, done => done
  | limit + 1, i, done =>
    if i < bytes.size then
      match bytes.utf8DecodeChar? i with
      | some c => decodeUtf8From bytes limit (i + c.utf8Size) (done.push c)
      | none => done.push '\x00'
    else done

def decodeUtf8 (bytes : ByteArray) : String :=
  String.ofList (decodeUtf8From bytes bytes.size 0 #[]).toList

end HtmlTree.Text
