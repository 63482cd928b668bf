import RemyCC.Json.Parse
import RemyCC.Text
import RemyCC.Index.Schema

/-!
# Import bindings

A file's import bindings name Python modules. A module of the standard library
makes the bound names external; any other is looked for among the indexed
Python files by the suffix of their paths, and counts as found only when one
path alone fits.
-/

namespace RemyCC.Index

open Relational Text

def pyStdlibModuleNames : List String :=
  ["__future__", "_abc", "_aix_support", "_ast", "_asyncio", "_bisect", "_blake2", "_bz2",
    "_codecs", "_codecs_cn", "_codecs_hk", "_codecs_iso2022", "_codecs_jp", "_codecs_kr",
    "_codecs_tw", "_collections", "_collections_abc", "_compat_pickle", "_compression",
    "_contextvars", "_crypt", "_csv", "_ctypes", "_curses", "_curses_panel", "_datetime", "_dbm",
    "_decimal", "_elementtree", "_frozen_importlib", "_frozen_importlib_external", "_functools",
    "_gdbm", "_hashlib", "_heapq", "_imp", "_io", "_json", "_locale", "_lsprof", "_lzma",
    "_markupbase", "_md5", "_msi", "_multibytecodec", "_multiprocessing", "_opcode", "_operator",
    "_osx_support", "_overlapped", "_pickle", "_posixshmem", "_posixsubprocess", "_py_abc",
    "_pydatetime", "_pydecimal", "_pyio", "_pylong", "_queue", "_random", "_scproxy", "_sha1",
    "_sha2", "_sha3", "_signal", "_sitebuiltins", "_socket", "_sqlite3", "_sre", "_ssl", "_stat",
    "_statistics", "_string", "_strptime", "_struct", "_symtable", "_thread", "_threading_local",
    "_tkinter", "_tokenize", "_tracemalloc", "_typing", "_uuid", "_warnings", "_weakref",
    "_weakrefset", "_winapi", "_wmi", "_zoneinfo", "abc", "aifc", "antigravity", "argparse",
    "array", "ast", "asyncio", "atexit", "audioop", "base64", "bdb", "binascii", "bisect",
    "builtins", "bz2", "cProfile", "calendar", "cgi", "cgitb", "chunk", "cmath", "cmd", "code",
    "codecs", "codeop", "collections", "colorsys", "compileall", "concurrent", "configparser",
    "contextlib", "contextvars", "copy", "copyreg", "crypt", "csv", "ctypes", "curses",
    "dataclasses", "datetime", "dbm", "decimal", "difflib", "dis", "doctest", "email",
    "encodings", "ensurepip", "enum", "errno", "faulthandler", "fcntl", "filecmp", "fileinput",
    "fnmatch", "fractions", "ftplib", "functools", "gc", "genericpath", "getopt", "getpass",
    "gettext", "glob", "graphlib", "grp", "gzip", "hashlib", "heapq", "hmac", "html", "http",
    "idlelib", "imaplib", "imghdr", "importlib", "inspect", "io", "ipaddress", "itertools",
    "json", "keyword", "lib2to3", "linecache", "locale", "logging", "lzma", "mailbox", "mailcap",
    "marshal", "math", "mimetypes", "mmap", "modulefinder", "msilib", "msvcrt",
    "multiprocessing", "netrc", "nis", "nntplib", "nt", "ntpath", "nturl2path", "numbers",
    "opcode", "operator", "optparse", "os", "ossaudiodev", "pathlib", "pdb", "pickle",
    "pickletools", "pipes", "pkgutil", "platform", "plistlib", "poplib", "posix", "posixpath",
    "pprint", "profile", "pstats", "pty", "pwd", "py_compile", "pyclbr", "pydoc", "pydoc_data",
    "pyexpat", "queue", "quopri", "random", "re", "readline", "reprlib", "resource",
    "rlcompleter", "runpy", "sched", "secrets", "select", "selectors", "shelve", "shlex",
    "shutil", "signal", "site", "smtplib", "sndhdr", "socket", "socketserver", "spwd", "sqlite3",
    "sre_compile", "sre_constants", "sre_parse", "ssl", "stat", "statistics", "string",
    "stringprep", "struct", "subprocess", "sunau", "symtable", "sys", "sysconfig", "syslog",
    "tabnanny", "tarfile", "telnetlib", "tempfile", "termios", "textwrap", "this", "threading",
    "time", "timeit", "tkinter", "token", "tokenize", "tomllib", "trace", "traceback",
    "tracemalloc", "tty", "turtle", "turtledemo", "types", "typing", "unicodedata", "unittest",
    "urllib", "uu", "uuid", "venv", "warnings", "wave", "weakref", "webbrowser", "winreg",
    "winsound", "wsgiref", "xdrlib", "xml", "xmlrpc", "zipapp", "zipfile", "zipimport", "zlib",
    "zoneinfo"]

def jsonArray (text : String) : List Json.Value :=
  ((Json.parse text).bind Json.Value.asArray).getD []

def jsonStrings (items : List Json.Value) : List String := items.filterMap Json.Value.asStr

def moduleName (binding : Json.Value) : String :=
  ((binding.get "module").bind Json.Value.asStr).getD ""

def boundNames (binding : Json.Value) : List String :=
  (((binding.get "names").bind Json.Value.asArray).map jsonStrings).getD []

def isStdlib (module : String) : Bool := pyStdlibModuleNames.contains (firstPart '.' module)

def moduleSuffixes (module : String) : List String :=
  let joined := replaceChar '.' '/' module
  [joined ++ ".py", joined ++ "/__init__.py"]

def fitsModule (module path : String) : Bool :=
  (moduleSuffixes module).any fun suffix => path == suffix || endsWith path ("/" ++ suffix)

/-- Both maps as lists of pairs, in the order of their entries. -/
structure ImportDerivation where
  supplements : List (String × String)
  externals : List (String × String)
  deriving DecidableEq, Repr

namespace ImportDerivation

def supplementsOf (i : ImportDerivation) (path : String) : List String :=
  (i.supplements.filter fun s => s.1 == path).map Prod.snd

def externalsOf (i : ImportDerivation) (path : String) : List String :=
  (i.externals.filter fun s => s.1 == path).map Prod.snd

end ImportDerivation

def Database.filesByPath (d : Database) : List FileRow :=
  orderBy (compareOn FileRow.path) d.files.rows

def pyPaths (d : Database) : List String :=
  (d.filesByPath.map FileRow.path).filter fun path => endsWith path ".py"

def suffixHits (module : String) (d : Database) : List String :=
  (pyPaths d).filter (fitsModule module)

/-- What one binding adds: the only path that fits its module, or the names
that it binds to a module outside the index. -/
def bindingSupplement (d : Database) (binding : Json.Value) : Option String :=
  let module := moduleName binding
  if module = "" ∨ isStdlib module then none
  else match suffixHits module d with
    | [hit] => some hit
    | _ => none

def bindingExternals (d : Database) (binding : Json.Value) : List String :=
  let module := moduleName binding
  if module = "" then []
  else if isStdlib module then boundNames binding
  else if suffixHits module d = [] then boundNames binding
  else []

def deriveImportBindings (d : Database) : ImportDerivation where
  supplements := d.filesByPath.flatMap fun r =>
    ((jsonArray r.importBindings).filterMap (bindingSupplement d)).map fun hit => (r.path, hit)
  externals := d.filesByPath.flatMap fun r =>
    ((jsonArray r.importBindings).flatMap (bindingExternals d)).map fun name => (r.path, name)

def bindingAffected (changed : List String) (binding : Json.Value) : Bool :=
  let module := moduleName binding
  module != "" && !isStdlib module && changed.any (fitsModule module)

def importBindingHosts (changed : List String) (d : Database) : List String :=
  if changed = [] then []
  else (d.filesByPath.filter fun r => r.importBindings != "[]" &&
    (jsonArray r.importBindings).any (bindingAffected changed)).map FileRow.path

end RemyCC.Index
