/-!
# Reading faults

Why bytes cannot be had: the file system refuses, or a compressed stream is damaged.
-/

namespace PetriAlign

inductive ReadFault
  | notFound
  | notDirectory
  | isDirectory
  | alreadyExists
  | nameTooLong
  /-- A directory is named in a way in which it cannot be replaced. -/
  | busy
  /-- A zero byte in the path that a file is moved to. -/
  | invalidPath
  /-- A zero byte in the path of a file that is opened. -/
  | nulInPath
  /-- Text that is not UTF-8. -/
  | notUtf8
  | invalidGzipHeader
  /-- A text in a gzip header that does not end. -/
  | headerTooLong
  /-- A gzip header or trailer that is cut short. -/
  | unexpectedEnd
  /-- Compressed data that is cut short. -/
  | incompleteDeflate
  | corruptDeflate
  /-- The checksum or the length of the data is not the one that was recorded. -/
  | corruptGzip
  deriving DecidableEq, Repr

namespace ReadFault

def message : ReadFault → String
  | notFound => "No such file or directory (os error 2)"
  | notDirectory => "Not a directory (os error 20)"
  | isDirectory => "Is a directory (os error 21)"
  | alreadyExists => "File exists (os error 17)"
  | nameTooLong => "File name too long (os error 36)"
  | busy => "Device or resource busy (os error 16)"
  | invalidPath => "Invalid argument (os error 22)"
  | nulInPath => "file name contained an unexpected NUL byte"
  | notUtf8 => "stream did not contain valid UTF-8"
  | invalidGzipHeader => "invalid gzip header"
  | headerTooLong => "gzip header field too long"
  | unexpectedEnd => "unexpected end of file"
  | incompleteDeflate => "incomplete deflate stream"
  | corruptDeflate => "corrupt deflate stream"
  | corruptGzip => "corrupt gzip stream does not have a matching checksum"

end ReadFault

end PetriAlign
