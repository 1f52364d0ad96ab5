/-!
Names that the emitted C may not declare: the keywords of C99, what the emitted
program itself defines, and what its three headers declare.
-/
namespace ImpToC.C

/-- The words of C99 that are never names. -/
def keywords : List String :=
  ["auto", "break", "case", "char", "const", "continue", "default", "do", "double", "else",
    "enum", "extern", "float", "for", "goto", "if", "inline", "int", "long", "register",
    "restrict", "return", "short", "signed", "sizeof", "static", "struct", "switch",
    "typedef", "union", "unsigned", "void", "volatile", "while", "_Bool", "_Complex",
    "_Imaginary"]

/-- The functions that every emitted program defines. -/
def emittedNames : List String := ["main", "concat_strings"]

def stdioNames : List String :=
  ["printf", "fprintf", "sprintf", "snprintf", "vprintf", "vfprintf", "vsprintf",
    "vsnprintf", "scanf", "fscanf", "sscanf", "puts", "fputs", "putchar", "fputc", "putc",
    "getchar", "fgetc", "getc", "gets", "fgets", "ungetc", "fopen", "freopen", "fclose",
    "fflush", "fread", "fwrite", "fseek", "ftell", "rewind", "fgetpos", "fsetpos", "feof",
    "ferror", "clearerr", "remove", "rename", "perror", "tmpfile", "tmpnam", "setbuf",
    "setvbuf", "FILE", "fpos_t", "EOF", "BUFSIZ", "FILENAME_MAX", "SEEK_SET", "SEEK_CUR",
    "SEEK_END", "stdin", "stdout", "stderr"]

def stringNames : List String :=
  ["strlen", "strcpy", "strncpy", "strcat", "strncat", "strcmp", "strncmp", "strcoll",
    "strxfrm", "strchr", "strrchr", "strstr", "strspn", "strcspn", "strpbrk", "strtok",
    "strerror", "memcpy", "memmove", "memset", "memcmp", "memchr"]

def stdlibNames : List String :=
  ["malloc", "calloc", "realloc", "free", "exit", "abort", "atexit", "getenv", "system",
    "atoi", "atol", "atoll", "atof", "strtol", "strtoll", "strtoul", "strtoull", "strtod",
    "strtof", "abs", "labs", "llabs", "div", "ldiv", "rand", "srand", "qsort", "bsearch",
    "mblen", "mbtowc", "wctomb", "mbstowcs", "wcstombs", "div_t", "ldiv_t", "size_t",
    "wchar_t", "RAND_MAX", "EXIT_SUCCESS", "EXIT_FAILURE", "MB_CUR_MAX"]

def sharedNames : List String := ["NULL"]

/-- No variable, parameter or function of a program may have one of these names. -/
def reservedNames : List String :=
  keywords ++ emittedNames ++ stdioNames ++ stringNames ++ stdlibNames ++ sharedNames

def isReserved (name : String) : Bool := reservedNames.contains name

end ImpToC.C
